/-
What is at the other end of a remote worker's socket.

There is a worker process, and between it and the controller there are queues of
bytes: those of the two sockets when they are connected directly, and the proxy's in
addition when it stands in between.  The worker's `send_message` and
`receive_message` block until the whole message has been handed to the first queue or
has arrived in the last.

`execution` is not part of anything: it records what the last execute request came to.
-/
import Distray.Worker
import Distray.Lib.Chain

namespace Distray

/-- What an execute request came to. -/
inductive Execution
  /-- The executable was not local, and nothing was forked. -/
  | refused
  | ran (ending : Ending)
deriving DecidableEq, Repr

/-- The status that is reported for it. -/
def Execution.status : Execution → Int32
  | .refused => -1
  | .ran ending => WEXITSTATUS ending.waitStatus

/-- A child was created, and it terminated normally with exit code 0. -/
def Execution.Succeeded (x : Execution) : Prop :=
  ∃ ending, x = .ran ending ∧ ending.child? = some (.exited 0)

/-- What a request comes to if it is one to execute. -/
def execution? (env : WorkerEnv) (request : Request) : Option Execution :=
  if request.requestType = .execute then
    if isPathnameLocal request.executeRequest.executable then some (.ran env.fork)
    else some .refused
  else none

/-- An execute response tells what the execution came to. -/
theorem execution?_of_execute (env : WorkerEnv) {request : Request}
    (h : request.requestType = .execute) :
    ∃ x, execution? env request = some x ∧
      (Worker.handle env request).executeResponse.status = x.status := by
  rw [Worker.handle_executeResponse env h, Worker.handleExecute, execution?, if_pos h]
  cases isPathnameLocal request.executeRequest.executable with
  | true => exact ⟨.ran env.fork, rfl, rfl⟩
  | false => exact ⟨.refused, rfl, rfl⟩

structure Link where
  toWorker : Chain UInt8
  toController : Chain UInt8
  process : Process
  execution : Option Execution

namespace Link

/-- A worker that has just connected, with so many stations on the way. -/
def make (hops : Nat) : Link :=
  ⟨Chain.empty hops, Chain.empty hops, .receiving, none⟩

inductive Input
  /-- Bytes move on towards the worker. -/
  | forwardRequest (k n : Nat)
  /-- Bytes move on towards the controller. -/
  | forwardResponse (k n : Nat)
  /-- `receive_message` returns. -/
  | receive
  /-- The handler returns. -/
  | handle (env : WorkerEnv)
  /-- `send_message` returns. -/
  | send
  /-- A call on the socket fails, and the program ends. -/
  | fail (code : Int)

/-- The controller takes these bytes; none of them when the connection is closed. -/
def deliver (l : Link) (data : Bytes) : Option Link :=
  if data = [] then some l
  else (Chain.take data l.toController).map fun c => { l with toController := c }

/-- The controller puts these bytes in. -/
def post (l : Link) (out : Bytes) : Link := { l with toWorker := l.toWorker.put out }

variable (codec : Codec)

def step (l : Link) : Input → Option Link
  | .forwardRequest k n => some { l with toWorker := l.toWorker.forward k n }
  | .forwardResponse k n => some { l with toController := l.toController.forward k n }
  | .receive =>
      match l.process, l.toWorker with
      | .receiving, q :: rest =>
          match Process.received codec q with
          | some (process, left) => some { l with process := process, toWorker := left :: rest }
          | none => none
      | _, _ => none
  | .handle env =>
      match l.process with
      | .handling request =>
          some { l with
            process := .sending (Worker.handle env request)
            execution := (execution? env request).or l.execution }
      | _ => none
  | .send =>
      match l.process with
      | .sending response =>
          some { l with
            process := .receiving
            toController := l.toController.put (sendMessage (codec.serializeResponse response)) }
      | _ => none
  | .fail code =>
      match l.process with
      | .receiving | .sending _ => some { l with process := .returned code }
      | _ => none

end Link

end Distray
