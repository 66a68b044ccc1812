/-
The proxy, as in `proxy.cpp`.

Like the controller, `start_proxy` is a loop around `poll`, and everything between two
calls of the operating system is one step of a machine.  The entries are taken from the
first to the last; a closed connection's descriptors are remembered for the rest of the
pass, because entries that were filled before may still name them.

`sockets` is not the program's: it is what the operating system knows about each open
descriptor other than the two it listens on, namely every byte that was received from
it and every byte that was sent to it since it was opened.  `addr` is the address `new`
returned for a `Connection`; they are numbered in the order in which the connections
were made.
-/
import Distray.Poll
import Distray.Lib.Machine
import Mathlib.Logic.Function.Basic

namespace Distray

open Octets

namespace Proxy

/-! ### Buffers and connections -/

def TMP_BUFFER_SIZE : Nat := 128 * 1024

/-- Buffer for passing data from one file descriptor to another. -/
structure Buffer where
  buffer : Bytes
deriving DecidableEq, Repr

namespace Buffer

def canSend (b : Buffer) : Bool := !b.buffer.isEmpty

/-- `send`, with the result of `::send`; also returns the bytes that went out. -/
def send (b : Buffer) (r : Except Errno Nat) : Except Errno (Buffer × Bytes) :=
  if b.canSend then
    match r with
    | .error e => .error e
    | .ok sentHere => .ok (⟨b.buffer.drop sentHere⟩, b.buffer.take sentHere)
  else .ok (b, [])

/-- Whether `::send` can return this: it takes no more than it was given, and an `int` holds it. -/
def admits (b : Buffer) : Except Errno Nat → Bool
  | .error _ => true
  | .ok sentHere => sentHere ≤ b.buffer.length && sentHere < 2 ^ 31

/--
`receive`, with the result of `recv`.  The bytes go through the temporary buffer that
all connections share, whose new content is returned along with the buffer.
-/
def receive (b : Buffer) (tmpBuffer : Bytes) : Except Errno Bytes → Except Errno (Buffer × Bytes)
  | .error e => .error e
  | .ok data =>
      if data.length = 0 then .error .ECONNRESET
      else
        let tmpBuffer := overwrite tmpBuffer 0 data
        .ok (⟨b.buffer ++ tmpBuffer.take data.length⟩, tmpBuffer)

end Buffer

/-- Whether `recv` can return this. -/
def admits : Except Errno Bytes → Bool
  | .error _ => true
  | .ok data => data.length ≤ TMP_BUFFER_SIZE

/-- The places where the proxy calls `exit`. -/
inductive Exit
  | unknownFd (fd : Int)
  | didNotFindIncoming (fd : Int)
  | didNotFindOutgoing (fd : Int)
  | didNotFindDead (fd : Int)
  | connectionNotFound
deriving DecidableEq, Repr

/-- What is printed before the call; the code is -1 in each case. -/
def Exit.message : Exit → Bytes
  | .unknownFd fd =>
      bytes ("Fatal: Was passed fd " ++ toString fd ++ " that we don't know about.\n")
  | .didNotFindIncoming fd => bytes ("Fatal: Did not find incoming fd " ++ toString fd ++ "\n")
  | .didNotFindOutgoing fd => bytes ("Fatal: Did not find outgoing fd " ++ toString fd ++ "\n")
  | .didNotFindDead fd => bytes ("Fatal: Did not find dead fd " ++ toString fd ++ "\n")
  | .connectionNotFound => bytes "Error: Connection not found.\n"

/-- Connection between a worker and a controller. -/
structure Connection where
  addr : Nat
  /-- File descriptor for the worker, or -1 if none has connected yet. -/
  workerFd : Int
  /-- File descriptor for the controller, or -1 if none has connected yet. -/
  controllerFd : Int
  w2c : Buffer
  c2w : Buffer
deriving DecidableEq, Repr

namespace Connection

def make (addr : Nat) : Connection := ⟨addr, -1, -1, ⟨[]⟩, ⟨[]⟩⟩

/-- `add_pollfd`; the buffer is the outgoing buffer for this file descriptor. -/
def addPollfd (c : Connection) (fd : Int) (buffer : Buffer) : List Pollfd :=
  if fd ≠ -1 then
    [{ fd := fd
       events := { pollin := true, pollout := buffer.canSend }
       revents := {}
       owner := some c.addr }]
  else []

def addPollfds (c : Connection) : List Pollfd :=
  c.addPollfd c.workerFd c.c2w ++ c.addPollfd c.controllerFd c.w2c

/-- Send as much as we can to this file descriptor. -/
def send (c : Connection) (fd : Int) (r : Except Errno Nat) :
    Except Exit (Except Errno (Connection × Bytes)) :=
  if fd = c.workerFd then .ok ((c.c2w.send r).map fun (b, out) => ({ c with c2w := b }, out))
  else if fd = c.controllerFd then
    .ok ((c.w2c.send r).map fun (b, out) => ({ c with w2c := b }, out))
  else .error (.unknownFd fd)

/-- Receive as much as we can from this file descriptor. -/
def receive (c : Connection) (tmpBuffer : Bytes) (fd : Int) (r : Except Errno Bytes) :
    Except Exit (Except Errno (Connection × Bytes)) :=
  if fd = c.workerFd then
    .ok ((c.w2c.receive tmpBuffer r).map fun (b, tmp) => ({ c with w2c := b }, tmp))
  else if fd = c.controllerFd then
    .ok ((c.c2w.receive tmpBuffer r).map fun (b, tmp) => ({ c with c2w := b }, tmp))
  else .error (.unknownFd fd)

/-- The buffer `send` would send from. -/
def outgoing (c : Connection) (fd : Int) : Buffer := if fd = c.workerFd then c.c2w else c.w2c

end Connection

/--
The position of any connection that has either the specified worker fd or specified
controller fd, and the connection.
-/
def find (connections : List Connection) (workerFd controllerFd : Int) :
    Option (Nat × Connection) := do
  let k ← connections.findIdx? fun c => c.workerFd = workerFd || c.controllerFd = controllerFd
  let c ← connections[k]?
  some (k, c)

/-! ### The loop -/

/-- What has passed through an open descriptor. -/
structure Socket where
  /-- The bytes received from it. -/
  rx : Bytes
  /-- The bytes sent to it. -/
  tx : Bytes
deriving DecidableEq, Repr

/-- What the proxy does next. -/
inductive Pc
  /-- The poll list, then `poll`. -/
  | polling
  /-- The test of `deleted_fds` for an entry, then its `POLLIN` branch. -/
  | receiving (i : Nat)
  /-- Its `POLLOUT` branch. -/
  | sending (i : Nat)
  /-- Its branch for `POLLERR`, `POLLHUP` and `POLLNVAL`. -/
  | checking (i : Nat)
  | returned (code : Int)
  | exited (why : Exit)
deriving DecidableEq, Repr

end Proxy

structure Proxy where
  workerServerFd : Int
  controllerServerFd : Int
  connections : List Proxy.Connection
  pollfds : List Pollfd
  /-- What `poll` returned. -/
  result : Int
  deletedFds : List Int
  tmpBuffer : Bytes
  pc : Proxy.Pc
  nextAddr : Nat
  sockets : Int → Option Proxy.Socket

namespace Proxy

/-- What the operating system answers. -/
inductive Input
  /-- Nothing was asked. -/
  | tau
  | poll (result : Int) (revents : List PollFlags)
  | accept (fd : Int)
  | recv (r : Except Errno Bytes)
  | send (r : Except Errno Nat)

/-! ### The operating system

Descriptors are numbers that are used again, and what was received from one or sent to it
belongs to the socket it stands for at the time.  So the bytes are kept with the descriptor
from the moment it is opened until it is closed.
-/

/-- A descriptor is opened. -/
def opened (sockets : Int → Option Socket) (fd : Int) : Int → Option Socket :=
  if fd = -1 then sockets else Function.update sockets fd (some ⟨[], []⟩)

/-- One is closed. -/
def closed (sockets : Int → Option Socket) (fd : Int) : Int → Option Socket :=
  if fd = -1 then sockets else Function.update sockets fd none

/-- Bytes have passed through one. -/
def passed (sockets : Int → Option Socket) (fd : Int) (rx tx : Bytes) : Int → Option Socket :=
  Function.update sockets fd ((sockets fd).map fun x => ⟨x.rx ++ rx, x.tx ++ tx⟩)

/-! ### The steps -/

/-- A new connection from worker or controller, for entry `i`. -/
def acceptOn (i : Nat) (fd : Int) (s : Proxy) : Proxy :=
  let next := { s with sockets := opened s.sockets fd, pc := .sending i }
  -- the source tests the result of `poll` here, not that of `accept`
  if s.result = -1 then { next with pc := .returned (-1) }
  else if i = 0 then
    match find s.connections (-1) (-2) with
    | some (k, _) =>
        { next with connections := s.connections.modify k fun c => { c with workerFd := fd } }
    | none =>
        { next with
          connections := s.connections ++ [{ Connection.make s.nextAddr with workerFd := fd }]
          nextAddr := s.nextAddr + 1 }
  else
    match find s.connections (-2) (-1) with
    | some (k, _) =>
        { next with connections := s.connections.modify k fun c => { c with controllerFd := fd } }
    | none =>
        { next with
          connections := s.connections ++ [{ Connection.make s.nextAddr with controllerFd := fd }]
          nextAddr := s.nextAddr + 1 }

/-- `close_connection`. -/
def closeConnection (c : Connection) (next : Pc) (s : Proxy) : Proxy :=
  let s := { s with
    deletedFds := c.controllerFd :: c.workerFd :: s.deletedFds
    sockets := closed (closed s.sockets c.workerFd) c.controllerFd }
  match s.connections.findIdx? fun x => x.addr = c.addr with
  | some k => { s with connections := s.connections.eraseIdx k, pc := next }
  | none => { s with pc := .exited .connectionNotFound }

/-- The `POLLIN` branch of entry `i`, once the connection has been found. -/
def receiveFrom (r : Except Errno Bytes) (i : Nat) (fd : Int) (k : Nat) (c : Connection)
    (s : Proxy) : Proxy :=
  match c.receive s.tmpBuffer fd r with
  | .error why => { s with pc := .exited why }
  | .ok (.error .ECONNRESET) => s.closeConnection c (.receiving (i + 1))
  | .ok (.error _) => { s with pc := .returned (-1) }
  | .ok (.ok (c', tmpBuffer)) =>
      { s with
        connections := s.connections.set k c'
        tmpBuffer := tmpBuffer
        sockets := passed s.sockets fd (r.toOption.getD []) []
        pc := .sending i }

/-- The `POLLOUT` branch, likewise. -/
def sendTo (r : Except Errno Nat) (i : Nat) (fd : Int) (k : Nat) (c : Connection) (s : Proxy) :
    Proxy :=
  match c.send fd r with
  | .error why => { s with pc := .exited why }
  | .ok (.error _) => { s with pc := .returned (-1) }
  | .ok (.ok (c', out)) =>
      { s with
        connections := s.connections.set k c'
        sockets := passed s.sockets fd [] out
        pc := .checking i }

/-- One step, the input being what the call at the program counter is answered with. -/
def step (s : Proxy) (input : Input) : Option Proxy :=
  match s.pc with
  | .polling =>
      match input with
      | .poll result revents =>
          let pollfds := Pollfd.listening s.workerServerFd :: .listening s.controllerServerFd ::
            s.connections.flatMap Connection.addPollfds
          if result = -1 then some { s with pc := .returned (-1) }
          else if revents.length = pollfds.length then
            some { s with
              result := result
              pollfds := setRevents pollfds revents
              deletedFds := []
              pc := .receiving 0 }
          else none
      | _ => none
  | .receiving i =>
      match s.pollfds[i]? with
      | none =>
          match input with
          | .tau => some { s with pc := .polling }
          | _ => none
      | some entry =>
          if entry.fd ∈ s.deletedFds then
            match input with
            | .tau => some { s with pc := .receiving (i + 1) }
            | _ => none
          else if entry.revents.pollin then
            if i ≤ 1 then
              match input with
              | .accept fd => some (s.acceptOn i fd)
              | _ => none
            else
              match find s.connections entry.fd entry.fd, input with
              | none, .tau => some { s with pc := .exited (.didNotFindIncoming entry.fd) }
              | some (k, c), .recv r =>
                  if admits r then some (s.receiveFrom r i entry.fd k c) else none
              | _, _ => none
          else
            match input with
            | .tau => some { s with pc := .sending i }
            | _ => none
  | .sending i =>
      match s.pollfds[i]? with
      | none => none
      | some entry =>
          if entry.revents.pollout && 2 ≤ i then
            match find s.connections entry.fd entry.fd, input with
            | none, .tau => some { s with pc := .exited (.didNotFindOutgoing entry.fd) }
            | some (k, c), .send r =>
                if (c.outgoing entry.fd).admits r then some (s.sendTo r i entry.fd k c) else none
            | _, _ => none
          else
            match input with
            | .tau => some { s with pc := .checking i }
            | _ => none
  | .checking i =>
      match s.pollfds[i]?, input with
      | some entry, .tau =>
          if entry.revents.failed && 2 ≤ i then
            match find s.connections entry.fd entry.fd with
            | none => some { s with pc := .exited (.didNotFindDead entry.fd) }
            | some (_, c) => some (s.closeConnection c (.receiving (i + 1)))
          else some { s with pc := .receiving (i + 1) }
      | _, _ => none
  | .returned _ | .exited _ => none

/-- The state when the proxy listens on both its sockets. -/
def start (workerServerFd controllerServerFd : Int) : Proxy where
  workerServerFd := workerServerFd
  controllerServerFd := controllerServerFd
  connections := []
  pollfds := []
  result := 0
  deletedFds := []
  tmpBuffer := List.replicate TMP_BUFFER_SIZE 0
  pc := .polling
  nextAddr := 0
  sockets _ := none

/-- `start_proxy`, from the point where the listening sockets are there. -/
def machine (workerServerFd controllerServerFd : Int) : Machine Proxy Input where
  init := start workerServerFd controllerServerFd
  step := step

/-- `accept` succeeds and returns a descriptor that is not open. -/
def freshAccept (s : Proxy) : Input → Bool
  | .accept fd =>
      0 ≤ fd && fd ≠ s.workerServerFd && fd ≠ s.controllerServerFd && (s.sockets fd).isNone
  | _ => true

abbrev FreshAccept (s : Proxy) (input : Input) : Prop := s.freshAccept input = true

end Proxy

end Distray
