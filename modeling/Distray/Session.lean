/-
A session with one remote worker.

This is what the controller's loop and the network do with a single `RemoteWorker`:
start it, call `receive` and `send` when `poll` says so, and hand it a frame.  An
input is a call together with what the operating system answers, and a call that
fails, or that ends the program, has no state after it.

The worker's trace says what was asked for and what was answered.  What it does not show
is what has left the outgoing buffer; a session may be followed with the bytes that have
gone out so far on record beside it.
-/
import Distray.RemoteWorker
import Distray.Lib.History

namespace Distray

/-! ### What a trace shows

The trace has the events of a worker, newest first.  A history is the list of those of one
kind, oldest first, so that what happens next is added at its end.
-/

namespace Event

@[simp] def request? : Event → Option (Request × Option (Bytes × Bytes))
  | .setMessage request source _ => some (request, source)
  | _ => none

@[simp] def response? : Event → Option Response
  | .response r => some r
  | _ => none

@[simp] def write? : Event → Option (Bytes × Bytes)
  | .writeFile pathname content _ => some (pathname, content)
  | _ => none

@[simp] def frame? : Event → Option Int
  | .startFrame frame => some frame
  | _ => none

/-- Part of what a trace shows, oldest first. -/
def history {α : Type} (part : Event → Option α) (trace : List Event) : List α :=
  (trace.filterMap part).reverse

@[simp] theorem history_cons {α : Type} (part : Event → Option α) (e : Event)
    (trace : List Event) : history part (e :: trace) = history part trace ++ (part e).toList := by
  unfold history
  cases h : part e with
  | none => simp [h]
  | some a => simp [h]

@[simp] theorem history_append {α : Type} (part : Event → Option α) (new trace : List Event) :
    history part (new ++ trace) = history part trace ++ history part new := by
  simp [history]

end Event

namespace RemoteWorker

/-- The requests that were put into the outgoing buffer, with what was read for them. -/
def requests (w : RemoteWorker) : List (Request × Option (Bytes × Bytes)) :=
  Event.history Event.request? w.trace

/-- The responses that were decoded. -/
def responses (w : RemoteWorker) : List Response := Event.history Event.response? w.trace

/-- What was handed to `write_file`. -/
def written (w : RemoteWorker) : List (Bytes × Bytes) := Event.history Event.write? w.trace

/-- The frames that were handed to `run_frame`. -/
def framesGiven (w : RemoteWorker) : List Int := Event.history Event.frame? w.trace

end RemoteWorker

/-! ### The machine -/

namespace Session

inductive Input
  | start (files : Files)
  | recv (r : Except Errno Bytes) (files : Files)
  | send (r : Except Errno Nat)
  | runFrame (frame : Int) (files : Files)

/-- What the operating system answers to file operations in a call. -/
def Input.files : Input → Files
  | .start files | .recv _ files | .runFrame _ files => files
  | .send _ => ⟨fun _ => none, fun _ => none⟩

variable (codec : Codec) (p : Parameters)

/-- What a call returned. -/
def returned (x : Outcome RemoteWorker) : Option RemoteWorker :=
  match x with
  | .ok w => some w
  | _ => none

def step (w : RemoteWorker) : Input → Option RemoteWorker
  | .start files => if w.state = .sendWelcomeRequest then returned (w.start codec p files) else none
  | .recv r files =>
      if w.incomingBuffer.admits r then
        match w.receive codec p files r with
        | .ok (.ok w') => some w'
        | _ => none
      else none
  | .send r =>
      if w.outgoingBuffer.admits r then
        match w.send r with
        | .ok (w', _) => some w'
        | .error _ => none
      else none
  | .runFrame frame files => returned (w.runFrame codec p files frame)

/-- A session from the constructor on. -/
def machine (addr : Nat) (fd : Int) : Machine RemoteWorker Input where
  init := RemoteWorker.make addr fd
  step := step codec p

/-- The bytes that go out in a call. -/
def posts (w : RemoteWorker) : Input → Bytes
  | .send r =>
      match w.send r with
      | .ok (_, out) => out
      | .error _ => []
  | _ => []

/-- The session, with the bytes that have gone out on record. -/
def posting (addr : Nat) (fd : Int) : Machine (RemoteWorker × Bytes) Input :=
  (machine codec p addr fd).recording posts

/-- A frame that is handed out is not negative. -/
def framesNonneg : Input → Bool
  | .runFrame frame _ => 0 ≤ frame
  | _ => true

abbrev FramesNonneg (_ : RemoteWorker) (input : Input) : Prop := framesNonneg input = true

theorem returned_eq_some {x : Outcome RemoteWorker} {w : RemoteWorker} :
    returned x = some w ↔ x = .ok w := by
  cases x <;> simp [returned]

variable {codec p}

theorem step_recv {w w' : RemoteWorker} {r : Except Errno Bytes} {files : Files}
    (h : step codec p w (.recv r files) = some w') :
    w.incomingBuffer.admits r = true ∧ w.receive codec p files r = .ok (.ok w') := by
  rw [step] at h
  split at h
  · rename_i hfit
    split at h
    · rename_i w₁ hok
      rw [Option.some.injEq] at h
      exact ⟨hfit, h ▸ hok⟩
    · exact absurd h (by simp)
  · exact absurd h (by simp)

theorem step_send {w w' : RemoteWorker} {r : Except Errno Nat}
    (h : step codec p w (.send r) = some w') :
    w.outgoingBuffer.admits r = true ∧ ∃ out, w.send r = .ok (w', out) := by
  rw [step] at h
  split at h
  · rename_i hfit
    split at h
    · rename_i w₁ out hok
      rw [Option.some.injEq] at h
      exact ⟨hfit, out, h ▸ hok⟩
    · exact absurd h (by simp)
  · exact absurd h (by simp)

end Session

end Distray
