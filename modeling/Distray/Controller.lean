/-
The controller's loop, as in `controller.cpp`.

`startController` is a loop around `poll`, and everything it does between two calls
of the operating system is one step of a machine.  The program counter says which
call comes next: the test at the head of the loop with the connections to proxies,
`poll`, then for each entry from the last to the first the branch for `POLLIN`, the
one for `POLLOUT` and the one for errors, then the frames to hand out.  An input is
what the operating system answers to the call.

The positions in `remoteWorkers` are the source's: an entry's worker is looked up by
the entry's position at the time the branch runs, whatever has happened to the vector
since.  An access outside the vector ends in the program counter `undefined`.

Three fields only record the past: `finished`, the frames that have been finished,
`handed`, the frames that were handed out, newest first, and `killed`, the workers
that were removed, with the position of the entry whose branch removed them.
-/
import Distray.Poll
import Distray.Lib.Machine

namespace Distray

/-- Whether it is a response that says that the renderer succeeded. -/
def Event.executedOk : Event → Bool
  | .response r => r.requestType = .execute ∧ r.executeResponse.status = 0
  | _ => false

/-- Whether it is the response to a copy-out request. -/
def Event.copiedOut : Event → Bool
  | .response r => r.requestType = .copyOut
  | _ => false

namespace RemoteWorker

/-- What a worker has done since it was last given a frame, newest first. -/
def sinceStart (w : RemoteWorker) : List Event :=
  w.trace.takeWhile fun event => match event with
    | .startFrame _ => false
    | _ => true

/-- The frame it was last given. -/
def started (w : RemoteWorker) : Option Int :=
  w.trace.findSome? fun event => match event with
    | .startFrame frame => some frame
    | _ => none

/-- The out-copies that are made once for each frame. -/
def frameOutCopies (p : Parameters) : List FileCopy := p.outCopies.filter FileCopy.hasParameter

/--
Whether the worker is back in `IDLE` after the execute response with status 0 and
the response to every copy-out of the frame it was given.
-/
def hasFinished (p : Parameters) (w : RemoteWorker) : Bool :=
  w.isIdle && (w.started == some w.frame) && w.sinceStart.any Event.executedOk &&
    (w.sinceStart.countP Event.copiedOut == (frameOutCopies p).length)

end RemoteWorker

/-- What the controller does next. -/
inductive Pc
  /-- The test of the outer loop, then the connections to proxies. -/
  | loopHead
  | polling
  /-- The `POLLIN` branch of an entry. -/
  | receiving (i : Nat)
  /-- Its `POLLOUT` branch. -/
  | sending (i : Nat)
  /-- Its branch for `POLLERR`, `POLLHUP` and `POLLNVAL`. -/
  | checking (i : Nat)
  | handingOut
  | returned (code : Int)
  | exited (why : Exit)
  | hung
  /-- An access outside a vector. -/
  | undefined
deriving DecidableEq, Repr

structure Controller where
  /-- The listening socket. -/
  sockFd : Int
  frames : List Int
  remoteWorkers : List RemoteWorker
  pollfds : List Pollfd
  /-- What `poll` returned. -/
  result : Int
  pc : Pc
  nextAddr : Nat
  finished : List Int
  handed : List Int
  killed : List (Nat × Nat)
deriving DecidableEq, Repr

namespace Controller

/-- What the operating system answers. -/
inductive Input
  /-- Nothing was asked. -/
  | tau
  /-- The descriptor of `create_client_socket` for each proxy. -/
  | connect (fd : Nat → Int) (files : Files)
  | poll (result : Int) (revents : List PollFlags)
  | accept (fd : Int) (files : Files)
  | recv (r : Except Errno Bytes) (files : Files)
  | send (r : Except Errno Nat)
  | assign (files : Files)

variable (codec : Codec) (p : Parameters)

/-- `any_worker_working`. -/
def anyWorkerWorking (ws : List RemoteWorker) : Bool := ws.any fun w => !w.isIdle

/-- `get_idle_worker`, as a position. -/
def getIdleWorker (ws : List RemoteWorker) : Option Nat := ws.findIdx? RemoteWorker.isIdle

/-- Go on with what a call returned, or stop the way the call did. -/
def after {α : Type} (s : Controller) (x : Outcome α) (f : α → Controller) : Controller :=
  match x with
  | .ok a => f a
  | .exit why => { s with pc := .exited why }
  | .hang => { s with pc := .hung }
  | .undefined => { s with pc := .undefined }

/-- `kill_worker`, for the branch of entry `i`. -/
def killWorker (s : Controller) (i index : Nat) (next : Pc) : Controller :=
  match s.remoteWorkers[index]? with
  | none => { s with pc := .undefined }
  | some w =>
      { s with
        frames := if w.frame = -1 then s.frames else w.frame :: s.frames
        remoteWorkers := s.remoteWorkers.eraseIdx index
        killed := (w.addr, i) :: s.killed
        pc := next }

/-- The proxies no worker is blocked for, in order. -/
def missingProxies (ws : List RemoteWorker) : List Nat :=
  (List.range p.proxyEndpoints.length).filter fun k => ws.all fun w => w.proxyIndex ≠ k

/-- Start a worker connection for each of the proxies. -/
def connectProxies (fd : Nat → Int) (files : Files) : List Nat → Controller → Controller
  | [], s => { s with pc := .polling }
  | k :: rest, s =>
      if fd k = -1 then { s with pc := .returned (-1) }
      else
        let w := { RemoteWorker.make s.nextAddr (fd k) with proxyIndex := k }
        s.after (w.start codec p files) fun w =>
          connectProxies fd files rest
            { s with remoteWorkers := s.remoteWorkers ++ [w], nextAddr := s.nextAddr + 1 }

/-- A new connection on the listening socket. -/
def acceptWorker (fd : Int) (files : Files) (s : Controller) : Controller :=
  -- the source tests the result of `poll` here, not that of `accept`
  if s.result = -1 then { s with pc := .returned (-1) }
  else
    s.after ((RemoteWorker.make s.nextAddr fd).start codec p files) fun w =>
      { s with
        remoteWorkers := s.remoteWorkers ++ [w], nextAddr := s.nextAddr + 1, pc := .sending 0 }

/-- The `POLLIN` branch of entry `i + 1`. -/
def receiveFrom (r : Except Errno Bytes) (files : Files) (i : Nat) (w : RemoteWorker)
    (s : Controller) : Controller :=
  s.after (w.receive codec p files r) fun
    | .ok w' =>
        { s with
          remoteWorkers := s.remoteWorkers.set i w'
          finished := if !w.isIdle && w'.hasFinished p then w'.frame :: s.finished else s.finished
          pc := .sending (i + 1) }
    | .error .ECONNRESET => s.killWorker (i + 1) i (.sending (i + 1))
    | .error _ => { s with pc := .returned (-1) }

/-- The `POLLOUT` branch of entry `i + 1`. -/
def sendTo (r : Except Errno Nat) (i : Nat) (w : RemoteWorker) (s : Controller) : Controller :=
  match w.send r with
  | .error _ => { s with pc := .returned (-1) }
  | .ok (w', _) =>
      { s with remoteWorkers := s.remoteWorkers.set i w', pc := .checking (i + 1) }

/-- The frame at the front goes to the worker at `index`. -/
def handOut (files : Files) (frame : Int) (rest : List Int) (index : Nat) (w : RemoteWorker)
    (s : Controller) : Controller :=
  s.after (w.runFrame codec p files frame) fun w' =>
    { s with
      frames := rest
      remoteWorkers := s.remoteWorkers.set index w'
      handed := frame :: s.handed }

/-- The events of an entry. -/
def revents (s : Controller) (i : Nat) : PollFlags :=
  match s.pollfds[i]? with
  | some entry => entry.revents
  | none => {}

/-- After the last branch of an entry: the entry before it, or the end of the pass. -/
def nextEntry : Nat → Pc
  | 0 => .handingOut
  | i + 1 => .receiving i

/-- One step, the input being what the call at the program counter is answered with. -/
def step (s : Controller) (input : Input) : Option Controller :=
  match s.pc with
  | .loopHead =>
      if !s.frames.isEmpty || anyWorkerWorking s.remoteWorkers then
        match input with
        | .connect fd files =>
            some (connectProxies codec p fd files (missingProxies p s.remoteWorkers) s)
        | _ => none
      else
        match input with
        | .tau => some { s with pc := .returned 0 }
        | _ => none
  | .polling =>
      match input with
      | .poll result revents =>
          let pollfds := Pollfd.listening s.sockFd :: s.remoteWorkers.map RemoteWorker.fillPollfd
          if result = -1 then some { s with pc := .returned (-1) }
          else if revents.length = pollfds.length then
            some { s with
              result := result
              pollfds := setRevents pollfds revents
              pc := .receiving s.remoteWorkers.length }
          else none
      | _ => none
  | .receiving i =>
      if (s.revents i).pollin then
        match i with
        | 0 =>
            match input with
            | .accept fd files => some (s.acceptWorker codec p fd files)
            | _ => none
        | i + 1 =>
            match s.remoteWorkers[i]?, input with
            | none, .tau => some { s with pc := .undefined }
            | some w, .recv r files =>
                if w.incomingBuffer.admits r then some (s.receiveFrom codec p r files i w)
                else none
            | _, _ => none
      else
        match input with
        | .tau => some { s with pc := .sending i }
        | _ => none
  | .sending i =>
      match i with
      | 0 =>
          match input with
          | .tau => some { s with pc := .checking 0 }
          | _ => none
      | i + 1 =>
          if (s.revents (i + 1)).pollout then
            match s.remoteWorkers[i]?, input with
            | none, .tau => some { s with pc := .undefined }
            | some w, .send r =>
                if w.outgoingBuffer.admits r then some (s.sendTo r i w) else none
            | _, _ => none
          else
            match input with
            | .tau => some { s with pc := .checking (i + 1) }
            | _ => none
  | .checking i =>
      match input with
      | .tau =>
          match i with
          | 0 => some { s with pc := nextEntry 0 }
          | i + 1 =>
              if (s.revents (i + 1)).failed then
                some (s.killWorker (i + 1) i (nextEntry (i + 1)))
              else some { s with pc := nextEntry (i + 1) }
      | _ => none
  | .handingOut =>
      match s.frames, getIdleWorker s.remoteWorkers with
      | frame :: rest, some index =>
          match s.remoteWorkers[index]?, input with
          | some w, .assign files => some (s.handOut codec p files frame rest index w)
          | _, _ => none
      | _, _ =>
          match input with
          | .tau => some { s with pc := .loopHead }
          | _ => none
  | .returned _ | .exited _ | .hung | .undefined => none

/-- The state before the loop, with the frames of `get_all`. -/
def start (sockFd : Int) (fuel : Nat) : Controller :=
  let s : Controller :=
    { sockFd := sockFd, frames := [], remoteWorkers := [], pollfds := [], result := 0
      pc := .loopHead, nextAddr := 0, finished := [], handed := [], killed := [] }
  s.after (p.frames.getAll fuel) fun frames => { s with frames := frames }

/-- `start_controller`, from the point where the listening socket is there. -/
def machine (sockFd : Int) (fuel : Nat) : Machine Controller Input where
  init := start p sockFd fuel
  step := step codec p

end Controller

end Distray
