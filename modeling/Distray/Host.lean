/-
The machine a worker runs on.

In `Worker` the handlers see the operating system as a table of answers.  Here it has a
tree of files, the one under the directory the worker was started in, and the handlers
read it and change it, in the order in which they make their calls; what they respond is
what they respond in `Worker` when the answers are those of the tree.

What is assumed of the operating system is part of how it is written down.  `stat` and
`open` resolve a name alike.  A file that is created has no execute bit, and one that is
overwritten keeps its mode.  `execv` needs an execute bit.  Everything else it may do as
it likes: fail, stop short of the end of a file, and let a program that was executed do
to the tree what the program does.

`calls`, `uploaded` and `executed` only record the past.
-/
import Distray.Worker
import Distray.Lib.FileTree
import Distray.Lib.Machine

namespace Distray

/-- The files under a directory. -/
abbrev Tree := FileTree UInt8 Bytes Nat

namespace Tree

/-- Where a pathname leads. -/
def resolve (t : Tree) (name : Bytes) : FileTree.Lookup UInt8 :=
  t.lookup '/'.toUInt8 '.'.toUInt8 name

/-- The file a pathname leads to, if it has an execute bit. -/
def executable? (t : Tree) (name : Bytes) : Option Nat :=
  match t.resolve name with
  | .found id =>
      match t.nodes[id]? with
      | some (.file _ mode) => if mode &&& Worker.executableBits ≠ 0 then some id else none
      | _ => none
  | _ => none

end Tree

/-- What the operating system decides while a request is handled. -/
structure Decisions where
  hostname : Option Bytes
  hardwareConcurrency : Int32
  /-- `stat` fails, whatever is there. -/
  statFails : Bool
  /-- `open` fails, whatever is there. -/
  openFails : Bool
  /-- How far a file is read. -/
  reads : Nat
  /-- How much of what is written to a file arrives. -/
  writes : Nat
  /-- The mode of a file that is created. -/
  mode : { mode : Nat // mode &&& Worker.executableBits = 0 }
  fork : Ending
  /-- What a program that is executed does. -/
  program : Tree → Tree

structure Host where
  tree : Tree
  /-- The names that were given to `stat`, to `open` and to `execv`. -/
  calls : List Bytes
  /-- The files whose content was written by `handle_copy_in`. -/
  uploaded : List Nat
  /-- The files that `execv` succeeded for. -/
  executed : List Nat
deriving DecidableEq, Repr

/-- There is a child. -/
def Ending.forked (ending : Ending) : Bool := ending.child?.isSome

/-! ### The calls

A call sees the tree as the calls before it have left it, and the program that is executed
may change the tree too.  Where the operating system has a choice, as to whether a call
fails and how far it gets, the choice is an argument.
-/

namespace Tree

variable (os : Decisions)

def stat (t : Tree) (name : Bytes) : Stat :=
  if os.statFails then .failed
  else
    match t.resolve name with
    | .found id =>
        match t.nodes[id]? with
        | some (.file _ mode) | some (.directory _ mode) => .found mode
        | none => .failed
    | .missing _ _ | .absent => .ENOENT
    | .notDirectory | .outside => .failed

/-- What is read from a file that is opened; nothing can be read from a directory. -/
def openIn (t : Tree) (name : Bytes) : Option Bytes :=
  if os.openFails then none
  else
    match t.resolve name with
    | .found id =>
        match t.nodes[id]? with
        | some (.file content _) => some (content.take os.reads)
        | some (.directory _ _) => some []
        | none => none
    | _ => none

/--
Open a file for writing and write to it: the tree afterwards, and the file.  A file that
is there loses what it held, one that is not is created.
-/
def openOut (t : Tree) (name content : Bytes) : Option (Tree × Nat) :=
  if os.openFails then none
  else
    match t.resolve name with
    | .found id =>
        match t.nodes[id]? with
        | some (.file _ _) => some (t.overwrite id (content.take os.writes), id)
        | _ => none
    | .missing directory last =>
        some (t.create directory last (content.take os.writes) os.mode, t.nodes.length)
    | _ => none

/-- The end of a child that calls `execv`, and the file, if the call succeeded. -/
def execvIn (t : Tree) (name : Bytes) (child : Child) : Child × Option Nat :=
  match child, t.executable? name with
  | .exited code, some id => (.exited code, some id)
  | .signaled signal core, some id => (.signaled signal core, some id)
  | .exited _, none => (.execvFailed, none)
  -- killed before it got there
  | .signaled signal core, none => (.signaled signal core, none)
  | .execvFailed, _ => (.execvFailed, none)

/-- The same where there may be no child, or none that `wait4` tells of. -/
def execv (t : Tree) (name : Bytes) : Ending × Option Nat :=
  match os.fork with
  | .forkFailed garbage => (.forkFailed garbage, none)
  | .waited child => ((t.execvIn name child).map .waited id)
  | .waitFailed child garbage => ((t.execvIn name child).map (.waitFailed · garbage) id)

end Tree

/-! ### The handlers -/

namespace Host

variable (os : Decisions)

/-- A name is given to the operating system. -/
def call (s : Host) (name : Bytes) : Host := { s with calls := name :: s.calls }

/-- `write_file`. -/
def writeFile (s : Host) (pathname content : Bytes) : Bool × Host :=
  let name := cStr pathname
  let s := s.call name
  match s.tree.openOut os name content with
  | some (tree, id) => (true, { s with tree := tree, uploaded := id :: s.uploaded })
  | none => (false, s)

def handleCopyIn (s : Host) (request : CopyInRequest) : CopyInResponse × Host :=
  let pathname := request.pathname
  if !isPathnameLocal pathname then ({ success? := some false }, s)
  else
    let result := s.tree.stat os (cStr pathname)
    let s := s.call (cStr pathname)
    match result with
    | .failed => ({ success? := some false }, s)
    | .found mode =>
        if mode &&& Worker.executableBits ≠ 0 then ({ success? := some false }, s)
        else
          let (success, s) := s.writeFile os pathname request.content
          ({ success? := some success }, s)
    | .ENOENT =>
        let (success, s) := s.writeFile os pathname request.content
        ({ success? := some success }, s)

/-- The fork and what becomes of the child. -/
def forkExecv (s : Host) (name : Bytes) : Ending × Host :=
  let result := s.tree.execv os name
  let s := if os.fork.forked then s.call name else s
  (result.1, match result.2 with
    | some id => { s with tree := os.program s.tree, executed := id :: s.executed }
    | none => s)

def handleExecute (s : Host) (request : ExecuteRequest) : ExecuteResponse × Host :=
  let executable := request.executable
  if !isPathnameLocal executable then ({ status? := some (-1) }, s)
  else
    let (ending, s) := s.forkExecv os (cStr executable)
    ({ status? := some (WEXITSTATUS ending.waitStatus) }, s)

def handleCopyOut (s : Host) (request : CopyOutRequest) : CopyOutResponse × Host :=
  let pathname := request.pathname
  if !isPathnameLocal pathname then ({ success? := some false }, s)
  else
    let s := s.call (cStr pathname)
    match s.tree.openIn os (cStr pathname) with
    | some content => ({ content? := some content, success? := some true }, s)
    | none => ({ success? := some false }, s)

/-- What the operating system answers to a request, as a table. -/
def env (s : Host) (request : Request) : WorkerEnv where
  hostname := os.hostname
  hardwareConcurrency := os.hardwareConcurrency
  stat := s.tree.stat os
  files :=
    { openIn := s.tree.openIn os
      openOut := fun name => (s.tree.openOut os name []).map fun _ => os.writes }
  fork := (s.tree.execv os (cStr request.executeRequest.executable)).1

/-- What `start_worker`'s loop does with a request. -/
def handle (s : Host) (request : Request) : Response × Host :=
  let response : Response := { requestType? := some request.requestType }
  match request.requestType with
  | .welcome =>
      ({ response with welcomeResponse? := some (Worker.handleWelcome (s.env os request)) }, s)
  | .copyIn =>
      let (answer, s) := s.handleCopyIn os request.copyInRequest
      ({ response with copyInResponse? := some answer }, s)
  | .execute =>
      let (answer, s) := s.handleExecute os request.executeRequest
      ({ response with executeResponse? := some answer }, s)
  | .copyOut =>
      let (answer, s) := s.handleCopyOut os request.copyOutRequest
      ({ response with copyOutResponse? := some answer }, s)

/-! ### They are the handlers of the worker

The handlers were written down twice: in `Worker` over a table of answers, and here over a
tree of files.  The answers of a tree make up such a table, one for each request, and with
it the two return the same response, so what is shown of either is about one program.
-/

theorem openOut_isSome (t : Tree) (name content content' : Bytes) :
    (t.openOut os name content).isSome = (t.openOut os name content').isSome := by
  unfold Tree.openOut
  split
  · rfl
  · split
    · split <;> rfl
    · rfl
    · rfl

theorem writeFile_success (s : Host) (request : Request) (pathname content : Bytes) :
    (s.writeFile os pathname content).1
      = Distray.writeFile (s.env os request).files pathname content := by
  have hsome : (s.tree.openOut os (cStr pathname) content).isSome
      = Distray.writeFile (s.env os request).files pathname content := by
    rw [Distray.writeFile, env, Option.isSome_map]
    exact openOut_isSome os s.tree _ _ _
  rw [← hsome]
  cases hopen : s.tree.openOut os (cStr pathname) content <;> simp [writeFile, call, hopen]

theorem handleCopyIn_response (s : Host) (request : Request) :
    (s.handleCopyIn os request.copyInRequest).1
      = Worker.handleCopyIn (s.env os request) request.copyInRequest := by
  have hwrite : (((s.call (cStr request.copyInRequest.pathname)).writeFile os
      request.copyInRequest.pathname request.copyInRequest.content).1)
        = Distray.writeFile (s.env os request).files request.copyInRequest.pathname
          request.copyInRequest.content := writeFile_success os (s.call _) request _ _
  have hstat : (s.env os request).stat = s.tree.stat os := rfl
  unfold handleCopyIn Worker.handleCopyIn
  by_cases hlocal : isPathnameLocal request.copyInRequest.pathname = true
  · cases hanswer : s.tree.stat os (cStr request.copyInRequest.pathname) with
    | failed => simp [hlocal, hstat, hanswer]
    | ENOENT => simp [hlocal, hstat, hanswer, hwrite]
    | found mode =>
        by_cases hmode : mode &&& Worker.executableBits = 0
        · simp [hlocal, hstat, hanswer, hmode, hwrite]
        · simp [hlocal, hstat, hanswer, hmode]
  · simp [hlocal]

theorem handleExecute_response (s : Host) (request : Request) :
    (s.handleExecute os request.executeRequest).1
      = Worker.handleExecute (s.env os request) request.executeRequest := by
  have hending : (s.forkExecv os (cStr request.executeRequest.executable)).1
      = (s.env os request).fork := rfl
  unfold handleExecute Worker.handleExecute
  by_cases hlocal : isPathnameLocal request.executeRequest.executable = true
  · simp [hlocal, hending]
  · simp [hlocal]

theorem handleCopyOut_response (s : Host) (request : Request) :
    (s.handleCopyOut os request.copyOutRequest).1
      = Worker.handleCopyOut (s.env os request) request.copyOutRequest := by
  have hread : readFile (s.env os request).files request.copyOutRequest.pathname
      = s.tree.openIn os (cStr request.copyOutRequest.pathname) := rfl
  unfold handleCopyOut Worker.handleCopyOut
  by_cases hlocal : isPathnameLocal request.copyOutRequest.pathname = true
  · cases hopen : s.tree.openIn os (cStr request.copyOutRequest.pathname) with
    | some content => simp [hlocal, hread, call, hopen]
    | none => simp [hlocal, hread, call, hopen]
  · simp [hlocal]

/-- **The responses are those of the worker.** -/
theorem handle_response (s : Host) (request : Request) :
    (s.handle os request).1 = Worker.handle (s.env os request) request := by
  unfold handle Worker.handle
  cases htype : request.requestType with
  | welcome => rfl
  | copyIn => simp [handleCopyIn_response]
  | execute => simp [handleExecute_response]
  | copyOut => simp [handleCopyOut_response]

/-! ### Any number of requests -/

/-- `start_worker`'s loop: a request after the other, and what is decided about it. -/
def machine (tree : Tree) : Machine Host (Request × Decisions) where
  init := ⟨tree, [], [], []⟩
  step s input := some (s.handle input.2 input.1).2

end Host

end Distray
