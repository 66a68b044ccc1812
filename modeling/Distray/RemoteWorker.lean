/-
One remote worker as the controller sees it, as in `RemoteWorker.hpp` and
`RemoteWorker.cpp`.

`dispatch` is a `do`-`while` over a `switch`: `dispatchStep` is one turn of it,
`dispatchLoop` repeats it while the state wants immediate action.  The loop is run on
fuel; `dispatchFuel` is more than it ever needs, except in the one state whose case is
empty and which is itself listed as immediate, where the source loops for ever.

Two fields are not the program's: `addr` is the address `new` returned, which is what
the controller's vector holds, and `trace` is the history of what the object has done,
newest first.  Nothing the program does depends on either.
-/
import Distray.IncomingBuffer
import Distray.OutgoingBuffer

namespace Distray

/-- The states of a remote worker, in the order of the source. -/
inductive State
  | sendWelcomeRequest
  | receiveWelcomeResponse
  | sendCopyInNonFrameFile
  | receiveCopyInNonFrameFile
  | idle
  | sendCopyInFrameFile
  | receiveCopyInFrameFile
  | sendExecuteRequest
  | receiveExecuteResponse
  | sendCopyOutFrameFile
  | receiveCopyOutFrameFile
  | sendCopyOutNonFrameFile
  | receiveCopyOutNonFrameFile
  | done
deriving DecidableEq, Repr

/-- The states that need immediate action. -/
def State.immediate : State → Bool
  | .sendWelcomeRequest | .sendCopyInNonFrameFile | .sendCopyInFrameFile
  | .sendExecuteRequest | .sendCopyOutFrameFile | .sendCopyOutNonFrameFile => true
  | _ => false

/-- What a remote worker does that can be seen from outside it. -/
inductive Event
  /-- `run_frame` was called. -/
  | startFrame (frame : Int)
  /-- `set_message` was called; with the local file that was read for the request and what
  was read of it, and with what `need_send()` said at the time. -/
  | setMessage (request : Request) (source : Option (Bytes × Bytes)) (needSend : Bool)
  /-- `reset` was called; with whether a message had only partly arrived. -/
  | reset (partly : Bool)
  /-- `receive_response` decoded a response. -/
  | response (response : Response)
  /-- `write_file` was called, and reported success; with what the file then holds. -/
  | writeFile (pathname content : Bytes) (stored : Option Bytes)
deriving DecidableEq, Repr

structure RemoteWorker where
  addr : Nat
  fd : Int
  state : State
  /-- What file is being copied: the next index in `m_in_copies` or `m_out_copies`. -/
  stateIndex : Nat
  /-- Whatever frame we're working on, or -1 for none. -/
  frame : Int
  /-- Index of the proxy we're blocked for, or -1 for none. -/
  proxyIndex : Int
  outgoingBuffer : OutgoingBuffer
  incomingBuffer : IncomingBuffer
  hostname : Bytes
  trace : List Event
deriving DecidableEq, Repr

namespace RemoteWorker

/-- The constructor. -/
def make (addr : Nat) (fd : Int) : RemoteWorker where
  addr := addr
  fd := fd
  state := .sendWelcomeRequest
  stateIndex := 0
  frame := -1
  proxyIndex := -1
  outgoingBuffer := OutgoingBuffer.make fd
  incomingBuffer := IncomingBuffer.make fd
  hostname := []
  trace := []

def isIdle (w : RemoteWorker) : Bool := w.state = .idle

/-! ### Requests and responses -/

variable (codec : Codec) (p : Parameters) (files : Files)

/-- `send_request`; `source` is the file that was read for the request, and what was read. -/
def sendRequest (w : RemoteWorker) (request : Request) (source : Option (Bytes × Bytes))
    (nextState : State) : RemoteWorker :=
  { w with
    incomingBuffer := w.incomingBuffer.reset
    outgoingBuffer := w.outgoingBuffer.setMessage (codec.serializeRequest request)
    state := nextState
    trace := .setMessage request source w.outgoingBuffer.needSend
      :: .reset w.incomingBuffer.partly :: w.trace }

/-- After a response has been decoded: the buffer is reset for next time. -/
def decoded (w : RemoteWorker) (response : Response) : RemoteWorker :=
  { w with
    incomingBuffer := w.incomingBuffer.reset
    trace := .reset w.incomingBuffer.partly :: .response response :: w.trace }

/-- `receive_response`. -/
def receiveResponse (w : RemoteWorker) (expected : RequestType) :
    Outcome (Response × RemoteWorker) :=
  match codec.parseResponse w.incomingBuffer.getMessage with
  | none => .exit .undecodable
  | some response =>
      if response.requestType ≠ expected then
        .exit (.unexpectedType response.requestType expected)
      else .ok (response, w.decoded response)

/-! ### The requests -/

/-- The request of `SEND_WELCOME_REQUEST`. -/
def welcomeRequest : Request := { requestType? := some .welcome }

/-- The request of `copy_file_in`. -/
def copyInRequest (pathname content : Bytes) : Request :=
  { requestType? := some .copyIn
    copyInRequest? := some { pathname? := some pathname, content? := some content } }

/-- The request of `SEND_EXECUTE_REQUEST`. -/
def executeRequest (frame : Int) : Request :=
  { requestType? := some .execute
    executeRequest? := some
      { executable? := some p.executable
        argument := p.arguments.map fun argument => substituteParameter argument frame } }

/-- The request of `copy_file_out`. -/
def copyOutRequest (pathname : Bytes) : Request :=
  { requestType? := some .copyOut, copyOutRequest? := some { pathname? := some pathname } }

/-! ### Copying files -/

/-- `copy_file_in`; `frame` is -1 for non-frame files. -/
def copyFileIn (w : RemoteWorker) (frame : Int) (receiveState nextState : State) :
    Outcome RemoteWorker :=
  match p.inCopies[w.stateIndex]? with
  | some fileCopy =>
      if decide (0 ≤ frame) = fileCopy.hasParameter then
        let sourcePathname := substituteParameter fileCopy.source frame
        let destinationPathname := substituteParameter fileCopy.destination frame
        match readFile files sourcePathname with
        | none => .exit (.unreadable sourcePathname)
        | some content =>
            .ok (w.sendRequest codec (copyInRequest destinationPathname content)
              (some (sourcePathname, content)) receiveState)
      else .ok { w with stateIndex := w.stateIndex + 1 }
  | none => .ok { w with state := nextState }

/-- `copy_file_out`. -/
def copyFileOut (w : RemoteWorker) (frame : Int) (receiveState nextState : State) :
    Outcome RemoteWorker :=
  match p.outCopies[w.stateIndex]? with
  | some fileCopy =>
      if decide (0 ≤ frame) = fileCopy.hasParameter then
        let sourcePathname := substituteParameter fileCopy.source frame
        .ok (w.sendRequest codec (copyOutRequest sourcePathname) none receiveState)
      else .ok { w with stateIndex := w.stateIndex + 1 }
  | none => .ok { w with state := nextState }

/-- `handle_copy_file_out_response`. -/
def handleCopyFileOutResponse (w : RemoteWorker) (response : Response) (frame : Int)
    (fileCopy : FileCopy) : Outcome RemoteWorker :=
  if response.copyOutResponse.success then
    let pathname := substituteParameter fileCopy.destination frame
    let content := response.copyOutResponse.content
    if writeFile files pathname content then
      .ok { w with
        trace := .writeFile pathname content (files.stored pathname content) :: w.trace }
    else .exit .copyFailed
  else .exit .copyFailed

/-! ### The state machine

One turn makes the request of a state that sends, or handles the response of a state that
receives, and names the next state.  The two functions for a copy are given the states to go
to as the source gives them, since each of them is called for both kinds of copy in.
-/

/-- One turn of `dispatch`'s loop: the `switch` on `m_state`. -/
def dispatchStep (w : RemoteWorker) : Outcome RemoteWorker :=
  match w.state with
  | .sendWelcomeRequest =>
      .ok (w.sendRequest codec welcomeRequest none .receiveWelcomeResponse)
  | .receiveWelcomeResponse => do
      let (response, w) ← w.receiveResponse codec .welcome
      pure { w with
        hostname := response.welcomeResponse.hostname
        proxyIndex := -1
        stateIndex := 0
        state := .sendCopyInNonFrameFile }
  | .sendCopyInNonFrameFile =>
      w.copyFileIn codec p files (-1) .receiveCopyInNonFrameFile .idle
  | .receiveCopyInNonFrameFile => do
      let (response, w) ← w.receiveResponse codec .copyIn
      if response.copyInResponse.success then
        pure { w with stateIndex := w.stateIndex + 1, state := .sendCopyInNonFrameFile }
      else .exit .copyFailed
  | .idle => .exit .dispatchedIdle
  | .sendCopyInFrameFile =>
      w.copyFileIn codec p files w.frame .receiveCopyInFrameFile .sendExecuteRequest
  | .receiveCopyInFrameFile => do
      let (response, w) ← w.receiveResponse codec .copyIn
      if response.copyInResponse.success then
        pure { w with stateIndex := w.stateIndex + 1, state := .sendCopyInFrameFile }
      else .exit .copyFailed
  | .sendExecuteRequest =>
      .ok (w.sendRequest codec (executeRequest p w.frame) none .receiveExecuteResponse)
  | .receiveExecuteResponse => do
      let (response, w) ← w.receiveResponse codec .execute
      let status := response.executeResponse.status
      if status ≠ 0 then .exit (.executeFailed status)
      else pure { w with state := .sendCopyOutFrameFile, stateIndex := 0 }
  | .sendCopyOutFrameFile =>
      w.copyFileOut codec p w.frame .receiveCopyOutFrameFile .idle
  | .receiveCopyOutFrameFile => do
      let (response, w) ← w.receiveResponse codec .copyOut
      match p.outCopies[w.stateIndex]? with
      | none => .undefined
      | some fileCopy => do
          let w ← w.handleCopyFileOutResponse files response w.frame fileCopy
          pure { w with stateIndex := w.stateIndex + 1, state := .sendCopyOutFrameFile }
  -- not implemented in the source
  | .sendCopyOutNonFrameFile | .receiveCopyOutNonFrameFile | .done => .ok w

/-- The loop: another turn while the state needs immediate action. -/
def dispatchLoop : Nat → RemoteWorker → Outcome RemoteWorker
  | 0, _ => .hang
  | fuel + 1, w => do
      let w ← w.dispatchStep codec p files
      if w.state.immediate then dispatchLoop fuel w else .ok w

/-- More turns than any call that returns can take. -/
def dispatchFuel : Nat := p.inCopies.length + p.outCopies.length + 4

/-- Move the state machine forward. -/
def dispatch (w : RemoteWorker) : Outcome RemoteWorker :=
  w.dispatchLoop codec p files (dispatchFuel p)

/-! ### What the controller calls -/

/-- Kick off the process. -/
def start (w : RemoteWorker) : Outcome RemoteWorker := w.dispatch codec p files

/-- Receive as many bytes as we can, and act on a message that is complete. -/
def receive (w : RemoteWorker) (r : Except Errno Bytes) :
    Outcome (Except Errno RemoteWorker) := do
  match ← w.incomingBuffer.receive r with
  | .error e => .ok (.error e)
  | .ok b =>
      let w := { w with incomingBuffer := b }
      if b.needReceive then .ok (.ok w)
      else do
        let w ← w.dispatch codec p files
        .ok (.ok w)

/-- Send what we can; with the bytes that went out. -/
def send (w : RemoteWorker) (r : Except Errno Nat) : Except Errno (RemoteWorker × Bytes) :=
  match w.outgoingBuffer.send r with
  | .error e => .error e
  | .ok (b, out) => .ok ({ w with outgoingBuffer := b }, out)

def runFrame (w : RemoteWorker) (frame : Int) : Outcome RemoteWorker :=
  if w.isIdle then
    { w with
      frame := frame, state := .sendCopyInFrameFile, stateIndex := 0
      trace := .startFrame frame :: w.trace }.dispatch codec p files
  else .exit .notIdle

end RemoteWorker

end Distray
