/-
What becomes of the files on the controller's side.

`copy_file_in` reads a file of the machine that the controller runs on, and
`handle_copy_file_out_response` writes one.  A remote worker's trace shows both, but it is
gone when the worker is.  Here they go on record as they happen, beside what the handlers
at the other ends have returned for.

An entry about a file says what `read_file` returned, or what `write_file` was given and
what the file holds afterwards.  With it goes what the operating system answered in that
step, so that a result about the record can say that the one is what the other comes to.
-/
import Distray.Record

namespace Distray

/-- A call of `read_file` or `write_file` that succeeded. -/
inductive FileOp
  /-- With what it returned. -/
  | read (pathname content : Bytes)
  /-- With what it was given, and what the file then holds. -/
  | wrote (pathname content : Bytes) (stored : Option Bytes)
deriving DecidableEq, Repr

namespace FileOp

def read? : FileOp → Option (Bytes × Bytes)
  | .read pathname content => some (pathname, content)
  | .wrote _ _ _ => none

def wrote? : FileOp → Option (Bytes × Bytes)
  | .read _ _ => none
  | .wrote pathname content _ => some (pathname, content)

end FileOp

@[simp] def Event.fileOp? : Event → Option FileOp
  | .setMessage _ (some (pathname, content)) _ => some (.read pathname content)
  | .writeFile pathname content stored => some (.wrote pathname content stored)
  | _ => none

def RemoteWorker.fileOps (w : RemoteWorker) : List FileOp := Event.history Event.fileOp? w.trace

namespace Controller

/-- What the operating system answers to file operations in a step. -/
def Input.files : Input → Files
  | .connect _ files | .accept _ files | .recv _ files | .assign files => files
  | .tau | .poll _ _ | .send _ => ⟨fun _ => none, fun _ => none⟩

/-- The same step with other answers to file operations. -/
def Input.withFiles (files : Files) : Input → Input
  | .connect fd _ => .connect fd files
  | .accept fd _ => .accept fd files
  | .recv r _ => .recv r files
  | .assign _ => .assign files
  | input => input

/-- What has been done with files for one worker. -/
def fileOpsAt (s : Controller) (addr : Nat) : List FileOp :=
  match s.remoteWorkers.find? fun w => w.addr = addr with
  | some w => w.fileOps
  | none => []

/-- What a step does with files: what it adds to the traces. -/
def touched (codec : Codec) (p : Parameters) (s : Controller) (input : Input) :
    List (Nat × FileOp) :=
  match step codec p s input with
  | some t => t.remoteWorkers.flatMap fun w =>
      (w.fileOps.drop (s.fileOpsAt w.addr).length).map fun op => (w.addr, op)
  | none => []

end Controller

namespace System

/--
What goes on record: what a handler has returned for, or what was done with a file and what
the operating system answered then.
-/
abbrev Entry := Nat × (Handled ⊕ FileOp × Files)

variable (codec : Codec) (p : Parameters)

def noteBoth (s : System) (input : Input) : List Entry :=
  (s.note input).map (fun entry => (entry.1, .inl entry.2)) ++
    match input with
    | .controller input =>
        (s.controller.touched codec p input).map fun entry =>
          (entry.1, .inr (entry.2, input.files))
    | .link _ _ => []

def ledger (sockFd : Int) (fuel : Nat) (hops : Nat → Nat) : Machine (System × List Entry) Input :=
  (machine codec p sockFd fuel hops).recording (noteBoth codec p)

/-- What is on record about the workers. -/
def handledIn (record : List Entry) : List (Nat × Handled) :=
  record.filterMap fun entry => entry.2.getLeft?.map fun x => (entry.1, x)

/-- What was done with files for one of them. -/
def fileOpsIn (addr : Nat) (record : List Entry) : List FileOp :=
  record.filterMap fun entry =>
    if entry.1 = addr then entry.2.getRight?.map Prod.fst else none

/-- The files that were read for one of them. -/
def readIn (addr : Nat) (record : List Entry) : List (Bytes × Bytes) :=
  (fileOpsIn addr record).filterMap FileOp.read?

/-- What was handed to `write_file` for it. -/
def wroteIn (addr : Nat) (record : List Entry) : List (Bytes × Bytes) :=
  (fileOpsIn addr record).filterMap FileOp.wrote?

end System

end Distray
