/-
A remote worker together with the worker it stands for.

The controller's end does what a session does, and the other end and the queues in
between take their own steps, in any order.  Bytes that the controller's end sends go
into the queue, and the ones it receives come out of it; that a connection is closed
or fails can happen at any time.

`status` says how the controller's end got on.  Once it is not `running` the
`RemoteWorker` is gone, and nothing more happens.
-/
import Distray.Session
import Distray.Link

namespace Distray

/-- How the controller's end got on. -/
inductive Status
  | running
  /-- `send` or `receive` failed. -/
  | failed (errno : Errno)
  | exited (why : Exit)
  | hung
  | undefined
deriving DecidableEq, Repr

structure Pair where
  worker : RemoteWorker
  link : Link
  status : Status

/--
Whether what is being sent fits the four-byte length in front of it.  A larger
message is beyond what the protobuf library serializes.
-/
def messagesFit (codec : Codec) (w : RemoteWorker) (l : Link) : Bool :=
  decide (w.outgoingBuffer.buffer.length < 2 ^ 32) &&
    match l.process with
    | .sending response => decide ((codec.serializeResponse response).length + 4 < 2 ^ 32)
    | _ => true

namespace Pair

inductive Input
  | start (files : Files)
  | recv (r : Except Errno Bytes) (files : Files)
  | send (r : Except Errno Nat)
  | runFrame (frame : Int) (files : Files)
  | link (input : Link.Input)

variable (codec : Codec) (p : Parameters)

/-- Go on with what a call returned. -/
def after {α : Type} (s : Pair) (x : Outcome α) (f : α → Pair) : Pair :=
  match x with
  | .ok a => f a
  | .exit why => { s with status := .exited why }
  | .hang => { s with status := .hung }
  | .undefined => { s with status := .undefined }

/-- The link after the bytes of a `recv` have been taken out. -/
def delivered (l : Link) : Except Errno Bytes → Option Link
  | .ok data => l.deliver data
  | .error _ => some l

def step (s : Pair) (input : Input) : Option Pair :=
  if s.status = .running then
    match input with
    | .start files =>
        if s.worker.state = .sendWelcomeRequest then
          some (s.after (s.worker.start codec p files) fun w => { s with worker := w })
        else none
    | .recv r files =>
        if s.worker.incomingBuffer.admits r then
          (delivered s.link r).map fun l =>
            s.after (s.worker.receive codec p files r) fun
              | .ok w => { s with worker := w, link := l }
              | .error e => { s with status := .failed e }
        else none
    | .send r =>
        if s.worker.outgoingBuffer.admits r then
          match s.worker.send r with
          | .ok (w, out) => some { s with worker := w, link := s.link.post out }
          | .error e => some { s with status := .failed e }
        else none
    | .runFrame frame files =>
        if s.worker.isIdle then
          some (s.after (s.worker.runFrame codec p files frame) fun w => { s with worker := w })
        else none
    | .link input => (s.link.step codec input).map fun l => { s with link := l }
  else none

/-- A remote worker and a worker that has just connected to it. -/
def machine (addr : Nat) (fd : Int) (hops : Nat) : Machine Pair Input where
  init := ⟨RemoteWorker.make addr fd, Link.make hops, .running⟩
  step := step codec p

/-- The messages fit after the step, too. -/
abbrev Fits (s : Pair) (input : Input) : Prop :=
  ∀ t ∈ step codec p s input, messagesFit codec t.worker t.link = true

/--
How many messages there are between the two ends: one that the controller's end has
not sent yet or the worker has not received, one that the worker is busy with, and one
that the worker has sent and the controller's end has not received.
-/
def outstanding (s : Pair) : Nat :=
  (if s.worker.outgoingBuffer.unsent = [] ∧ s.link.toWorker.stream = [] then 0 else 1) +
    (if s.link.process.waiting then 0 else 1) +
    (if s.worker.incomingBuffer.taken = [] ∧ s.link.toController.stream = [] then 0 else 1)

end Pair

end Distray
