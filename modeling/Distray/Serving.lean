/-
The worker's whole loop, as in `start_worker`, on a connection that can end anywhere.

In `Link` the worker's `receive_message` returns when a message is there, and a call can
fail at any time.  Here the calls of `recv` are made one by one on the bytes that are
still to come, after which the other side has closed the connection or there is an
error: with `MSG_WAITALL` a call waits for all it asks for, and gets less only at the
end.  So this says which of the ways out of `receive_message` is taken.
-/
import Distray.Worker

namespace Distray

open Octets

namespace Worker

/-- The most that one call receives. -/
def MAX_RW_COUNT : Nat := 0x7ffff000

/-- What is still to come on a socket. -/
structure Incoming where
  bytes : Bytes
  /-- The error after them, or `none` when the other side closes the connection. -/
  error : Option Errno
deriving DecidableEq, Repr

/-- `recv` with `MSG_WAITALL`. -/
def recv (n : Nat) (s : Incoming) : Except Errno Bytes × Incoming :=
  if s.bytes = [] then
    match s.error with
    | some e => (.error e, s)
    | none => (.ok [], s)
  else
    let n := min n MAX_RW_COUNT
    (.ok (s.bytes.take n), { s with bytes := s.bytes.drop n })

/-- The places where `receive_message` calls `exit`; the code is -1 in each case. -/
inductive Exit
  | shortLength (status : Nat)
  | shortMessage (status size : Nat)
  | undecodable
deriving DecidableEq, Repr

/-- What is printed before the call. -/
def Exit.message : Exit → Bytes
  | .shortLength status => bytes ("Received " ++ toString status ++ " bytes instead of 4\n")
  | .shortMessage status size =>
      bytes ("Received " ++ toString status ++ " bytes instead of " ++ toString size ++ "\n")
  | .undecodable => bytes "Can't decode protobuf.\n"

/-- How `receive_message` ends. -/
inductive Receipt
  | message (request : Request)
  /-- It returns -1, with this in `errno`. -/
  | failed (e : Errno)
  | exited (why : Exit)
deriving DecidableEq, Repr

variable (codec : Codec)

/-- `receive_message` for a request. -/
def receiveRequest (s : Incoming) : Receipt × Incoming :=
  match recv 4 s with
  | (.error e, s) => (.failed e, s)
  | (.ok header, s) =>
      if header.length = 0 then (.failed .ECONNRESET, s)
      else if header.length ≠ 4 then (.exited (.shortLength header.length), s)
      else
        let size := ntohl (ofLittle header)
        match recv size s with
        | (.error e, s) => (.failed e, s)
        | (.ok buf, s) =>
            if buf.length = 0 then (.failed .ECONNRESET, s)
            else if buf.length ≠ size then (.exited (.shortMessage buf.length size), s)
            else
              match codec.parseRequest buf with
              | some request => (.message request, s)
              | none => (.exited .undecodable, s)

/-- How the program ends. -/
inductive Ended
  | returned (code : Int)
  | exited (why : Exit)
deriving DecidableEq, Repr

/-- What came of the loop. -/
structure Served where
  /-- The requests that were handled. -/
  requests : List Request
  /-- The bytes that were sent. -/
  sent : Bytes
  /-- `none` when the fuel did not last. -/
  ended : Option Ended
deriving Repr

/--
`start_worker`'s loop, from request number `k` on.  What the operating system answers
while a request is handled, and whether the response can be sent, is given for each
number.
-/
def serve (env : Nat → WorkerEnv) (sends : Nat → Option Errno) : Nat → Nat → Incoming → Served
  | 0, _, _ => ⟨[], [], none⟩
  | fuel + 1, k, s =>
      match receiveRequest codec s with
      | (.failed .ECONNRESET, _) => ⟨[], [], some (.returned 0)⟩
      | (.failed _, _) => ⟨[], [], some (.returned (-1))⟩
      | (.exited why, _) => ⟨[], [], some (.exited why)⟩
      | (.message request, s) =>
          match sends k with
          | some _ => ⟨[request], [], some (.returned (-1))⟩
          | none =>
              let rest := serve env sends fuel (k + 1) s
              { rest with
                requests := request :: rest.requests
                sent := sendMessage (codec.serializeResponse (handle (env k) request)) ++
                  rest.sent }

end Worker

end Distray
