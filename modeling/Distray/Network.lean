/-
The proxy among the programs that are connected to it, and a remote worker that reaches
its worker through it.

Each side of a connection has a program at the other end, which puts bytes in and takes
bytes out whenever it likes.  The bytes it has put in wait until the proxy receives
them, and those the proxy has sent wait until it takes them; what it put in before the
proxy accepted it waits as well, and what was sent to it can still be taken when the
connection is closed.  So the bytes under way are told apart by the connection's address
and the side, and not by descriptors, which are used again.
-/
import Distray.Proofs.Relay
import Distray.Pair

namespace Distray

open Octets

namespace Proxy

/-- The connection at an address, while it is in the table. -/
def connectionAt (s : Proxy) (addr : Nat) : Option Connection :=
  s.connections.find? fun c => c.addr = addr

/-- What a step has received from a side of the connection at an address. -/
def got (s t : Proxy) (addr : Nat) (side : Side) : Bytes :=
  match s.connectionAt addr with
  | some c => (received t.sockets (c.fd side)).drop (received s.sockets (c.fd side)).length
  | none => []

/-- What it has sent there. -/
def gave (s t : Proxy) (addr : Nat) (side : Side) : Bytes :=
  match s.connectionAt addr with
  | some c => (sent t.sockets (c.fd side)).drop (sent s.sockets (c.fd side)).length
  | none => []

end Proxy

structure Network where
  proxy : Proxy
  /-- What has been put in at a side and not been received by the proxy. -/
  incoming : Nat → Side → Bytes
  /-- What the proxy has sent to a side and has not been taken there. -/
  outgoing : Nat → Side → Bytes

namespace Network

/-- The program at a side puts bytes in. -/
def put (n : Network) (addr : Nat) (side : Side) (data : Bytes) : Network :=
  { n with
    incoming := Function.update n.incoming addr
      (Function.update (n.incoming addr) side (n.incoming addr side ++ data)) }

/-- What is left for the program at a side. -/
def leave (n : Network) (addr : Nat) (side : Side) (rest : Bytes) : Network :=
  { n with
    outgoing := Function.update n.outgoing addr
      (Function.update (n.outgoing addr) side rest) }

/-- It takes these bytes out. -/
def take (n : Network) (addr : Nat) (side : Side) (data : Bytes) : Option Network :=
  if data <+: n.outgoing addr side then
    some (n.leave addr side ((n.outgoing addr side).drop data.length))
  else none

/-- What the proxy received in a step had been put in. -/
def hadBeenPut (n : Network) (t : Proxy) : Bool :=
  n.proxy.connections.all fun c =>
    decide (n.proxy.got t c.addr .left <+: n.incoming c.addr .left) &&
      decide (n.proxy.got t c.addr .right <+: n.incoming c.addr .right)

/-- The proxy takes a step. -/
def relay (n : Network) (input : Proxy.Input) : Option Network :=
  match n.proxy.step input with
  | some t =>
      if n.hadBeenPut t then
        some
          { proxy := t
            incoming := fun addr side =>
              (n.incoming addr side).drop (n.proxy.got t addr side).length
            outgoing := fun addr side => n.outgoing addr side ++ n.proxy.gave t addr side }
      else none
  | none => none

inductive Input
  | proxy (input : Proxy.Input)
  | put (addr : Nat) (side : Side) (data : Bytes)
  | take (addr : Nat) (side : Side) (data : Bytes)

def step (n : Network) : Input → Option Network
  | .proxy input => n.relay input
  | .put addr side data => some (n.put addr side data)
  | .take addr side data => n.take addr side data

/-- The proxy has just begun to listen, and nobody has said anything. -/
def start (workerServerFd controllerServerFd : Int) : Network where
  proxy := Proxy.start workerServerFd controllerServerFd
  incoming _ _ := []
  outgoing _ _ := []

/-- A descriptor that is accepted is new, and what others do is not done at this address. -/
def foreign (addr : Nat) (n : Network) : Input → Bool
  | .proxy input => n.proxy.freshAccept input
  | .put addr' _ _ | .take addr' _ _ => addr' ≠ addr

end Network

/--
A remote worker and the worker it stands for, on the two sides of one of the proxy's
connections.
-/
structure Relayed where
  worker : RemoteWorker
  network : Network
  process : Process
  /-- What the last execute request came to. -/
  execution : Option Execution
  status : Status

namespace Relayed

inductive Input
  | start (files : Files)
  | recv (r : Except Errno Bytes) (files : Files)
  | send (r : Except Errno Nat)
  | runFrame (frame : Int) (files : Files)
  /-- `receive_message` returns in the worker. -/
  | receive
  /-- The handler returns. -/
  | handle (env : WorkerEnv)
  /-- `send_message` returns. -/
  | respond
  /-- A call on the worker's socket fails, and the program ends. -/
  | fail (code : Int)
  /-- The proxy takes a step, or somebody else who is connected to it does. -/
  | network (input : Network.Input)

variable (codec : Codec) (p : Parameters)

/-- Go on with what a call returned. -/
def after {α : Type} (s : Relayed) (x : Outcome α) (f : α → Relayed) : Relayed :=
  match x with
  | .ok a => f a
  | .exit why => { s with status := .exited why }
  | .hang => { s with status := .hung }
  | .undefined => { s with status := .undefined }

/-- The network after the bytes of a `recv` have been taken out. -/
def taken (n : Network) (addr : Nat) : Except Errno Bytes → Option Network
  | .ok data => if data = [] then some n else n.take addr .right data
  | .error _ => some n

/-- One step; the connection is the one at this address. -/
def step (addr : Nat) (s : Relayed) (input : Input) : Option Relayed :=
  if s.status = .running then
    match input with
    | .start files =>
        if s.worker.state = .sendWelcomeRequest then
          some (s.after (s.worker.start codec p files) fun w => { s with worker := w })
        else none
    | .recv r files =>
        if s.worker.incomingBuffer.admits r then
          (taken s.network addr r).map fun n =>
            s.after (s.worker.receive codec p files r) fun
              | .ok w => { s with worker := w, network := n }
              | .error e => { s with status := .failed e }
        else none
    | .send r =>
        if s.worker.outgoingBuffer.admits r then
          match s.worker.send r with
          | .ok (w, out) => some { s with worker := w, network := s.network.put addr .right out }
          | .error e => some { s with status := .failed e }
        else none
    | .runFrame frame files =>
        if s.worker.isIdle then
          some (s.after (s.worker.runFrame codec p files frame) fun w => { s with worker := w })
        else none
    | .receive =>
        match s.process with
        | .receiving =>
            match Process.received codec (s.network.outgoing addr .left) with
            | some (process, left) =>
                some { s with process := process, network := s.network.leave addr .left left }
            | none => none
        | _ => none
    | .handle env =>
        match s.process with
        | .handling request =>
            some { s with
              process := .sending (Worker.handle env request)
              execution := (execution? env request).or s.execution }
        | _ => none
    | .respond =>
        match s.process with
        | .sending response =>
            some { s with
              process := .receiving
              network := s.network.put addr .left
                (sendMessage (codec.serializeResponse response)) }
        | _ => none
    | .fail code =>
        match s.process with
        | .receiving | .sending _ => some { s with process := .returned code }
        | _ => none
    | .network input =>
        if s.network.foreign addr input then
          (s.network.step input).map fun n => { s with network := n }
        else none
  else none

/-- Before anything is connected to the proxy. -/
def machine (workerAddr : Nat) (fd workerServerFd controllerServerFd : Int) (addr : Nat) :
    Machine Relayed Input where
  init := ⟨RemoteWorker.make workerAddr fd, .start workerServerFd controllerServerFd,
    .receiving, none, .running⟩
  step := step codec p addr

/-- The messages fit after the step. -/
abbrev Fits (addr : Nat) (s : Relayed) (input : Input) : Prop :=
  ∀ t ∈ step codec p addr s input,
    messagesFit codec t.worker ⟨[], [], t.process, t.execution⟩ = true

end Relayed

end Distray
