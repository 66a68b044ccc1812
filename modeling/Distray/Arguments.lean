/-
The command line, as in `Parameters.cpp`.

`parse_arguments` takes the arguments one after another, fills in the `Parameters` and
returns 0, or prints a message and returns the exit status.  An element of `argv` ends
at its first NUL, so an argument is a string without one.

What is printed is part of what is modelled.  A refusal carries the text and the status that
the program ends with, or the text of the exception that it throws, and nothing is left of
the options that were read up to there.
-/
import Distray.Parameters

namespace Distray

/-- An element of `argv`. -/
abbrev Argument := { s : Bytes // 0 ∉ s }

/-- The ports that are listened on, or connected to, by default. -/
def defaultWorkerPort : Nat := 1120
def defaultControllerPort : Nat := 1121

inductive Command
  | unspecified
  | worker
  | proxy
  | controller
  | unittest
deriving DecidableEq, Repr

/-- Why the command line is not accepted. -/
inductive Refusal
  /-- A message is printed, and the program is to exit with this status. -/
  | status (code : Int) (message : Bytes)
  /-- `next` was called when there was nothing left. -/
  | thrown (what : Bytes)
deriving DecidableEq, Repr

/--
Everything the command line can set.  The frames are not initialised; nothing reads them
before they have been parsed.
-/
structure Options extends Parameters where
  command : Command
  /-- Where a worker connects to, and a controller listens. -/
  endpoint : Endpoint
  workerEndpoint : Endpoint
  controllerEndpoint : Endpoint
deriving DecidableEq

namespace Options

/-- The constructor. -/
def make : Options where
  command := .unspecified
  endpoint := ⟨[]⟩
  workerEndpoint := ⟨[]⟩
  controllerEndpoint := ⟨[]⟩
  frames := ⟨0, 0, 0⟩
  executable := []

/-- What `usage` prints. -/
def usage : Bytes :=
  let workerPort := toString defaultWorkerPort
  let controllerPort := toString defaultControllerPort
  [
    "Usage: distray \x7bworker,proxy,controller\x7d [FLAGS] [ARGUMENTS]",
    "",
    "Commands:",
    "",
    "    worker ENDPOINT",
    "        The ENDPOINT of either a proxy or a controller [:" ++ workerPort ++ "].",
    "",
    "    proxy [FLAGS]",
    "        --worker-listen ENDPOINT      ENDPOINT to listen for workers on [:"
      ++ workerPort ++ "].",
    "        --controller-listen ENDPOINT  ENDPOINT to listen for controllers on [:"
      ++ controllerPort ++ "].",
    "",
    "    controller [FLAGS] FRAMES EXEC [PARAMETERS...]",
    "        FRAMES is a frame range specification: FIRST[,LAST[,STEP]],",
    "        where STEP defaults to 1 or -1 (depending on order of FIRST and LAST)",
    "        and LAST defaults to FIRST.",
    "        EXEC is the executable to run on each worker.",
    "        PARAMETERS are the parameters to pass to the executed binary.",
    "        Use %d or %0Nd for the frame number, where N is a positive",
    "        decimal integer that specifies field width.",
    "        --proxy ENDPOINT    Proxy ENDPOINT to connect to [:"
      ++ controllerPort ++ "]. Can be repeated.",
    "        --in LOCAL REMOTE   Copy LOCAL file to REMOTE file. Can be repeated.",
    "        --out REMOTE LOCAL  Copy REMOTE file to LOCAL file. Can be repeated.",
    "        --listen ENDPOINT   ENDPOINT to listen on [:" ++ workerPort ++ "].",
    "",
    "ENDPOINTs are specified as HOSTNAME:PORT, where in some cases the",
    "HOSTNAME or the PORT have a default value."
  ].flatMap fun line => bytes (line ++ "\n")

/-- Print a message, and exit with status 1. -/
def refuse {α : Type} (message : Bytes) : Except Refusal α :=
  .error (.status 1 (message ++ bytes "\n"))

/-- `next_is_flag`. -/
def nextIsFlag : List Argument → Bool
  | arg :: _ => arg.val[0]? = some '-'.toUInt8
  | [] => false

/-! ### The flags

A flag belongs to one command and takes the arguments that follow it, one if it is an
endpoint and two if it is a copy.  The six branches of the source differ in the field they
set and in their messages, so there is one definition for each of the two kinds.
-/

/-- A flag with an endpoint, which is one only some command has. -/
def endpointFlag (allowed : Bool) (notAllowed missing : String) (set : Endpoint → Options)
    (args : List Argument) : Except Refusal (Options × List Argument) :=
  if allowed then
    match args with
    | endpoint :: args => .ok (set ⟨endpoint.val⟩, args)
    | [] => refuse (bytes missing)
  else refuse (bytes notAllowed)

/-- `--in` and `--out`; the pathname at the worker's end is to be local. -/
def copyFlag (o : Options) (arg : Bytes) (remote : FileCopy → Bytes) (set : FileCopy → Options)
    (args : List Argument) : Except Refusal (Options × List Argument) :=
  if o.command ≠ .controller then
    refuse (bytes "The " ++ arg ++ bytes " flag is only valid with the controller command.")
  else
    match args with
    | source :: destination :: args =>
        let fileCopy := FileCopy.make source.val destination.val
        if isPathnameLocal (remote fileCopy) then .ok (set fileCopy, args)
        else refuse (bytes "Remote pathname must be local with " ++ arg ++ bytes " flag: "
          ++ remote fileCopy)
    | _ => refuse (bytes "Must specify two pathnames with " ++ arg ++ bytes " flag.")

/-- One turn of the loop over the flags: the flag, and the arguments after it. -/
def parseFlag (o : Options) (arg : Bytes) (args : List Argument) :
    Except Refusal (Options × List Argument) :=
  if arg = bytes "--proxy" then
    endpointFlag (o.command = .controller)
      "The --proxy flag is only valid with the controller command."
      "Must specify proxy endpoint with --proxy flag."
      (fun endpoint => { o with proxyEndpoints := o.proxyEndpoints ++ [endpoint] }) args
  else if arg = bytes "--in" then
    o.copyFlag arg FileCopy.destination
      (fun fileCopy => { o with inCopies := o.inCopies ++ [fileCopy] }) args
  else if arg = bytes "--out" then
    o.copyFlag arg FileCopy.source
      (fun fileCopy => { o with outCopies := o.outCopies ++ [fileCopy] }) args
  else if arg = bytes "--listen" then
    endpointFlag (o.command = .controller)
      "The --listen flag is only valid for the controller command."
      "Must specify listen endpoint with --listen flag."
      (fun endpoint => { o with endpoint := endpoint }) args
  else if arg = bytes "--worker-listen" then
    endpointFlag (o.command = .proxy)
      "The --worker-listen flag is only valid for the proxy command."
      "Must specify listen endpoint with --worker-listen flag."
      (fun endpoint => { o with workerEndpoint := endpoint }) args
  else if arg = bytes "--controller-listen" then
    endpointFlag (o.command = .proxy)
      -- the source names the other flag
      "The --worker-listen flag is only valid for the proxy command."
      "Must specify listen endpoint with --controller-listen flag."
      (fun endpoint => { o with controllerEndpoint := endpoint }) args
  else refuse (bytes "Unknown flag " ++ arg)

/-- The loop over the flags.  Every turn takes an argument, so their number is fuel enough. -/
def parseFlags : Nat → Options → List Argument → Except Refusal (Options × List Argument)
  | fuel + 1, o, arg :: args =>
      if nextIsFlag (arg :: args) then do
        let (o, args) ← o.parseFlag arg.val args
        parseFlags fuel o args
      else .ok (o, arg :: args)
  | _, o, args => .ok (o, args)

/-! ### The rest -/

/-- The parameters that are not flags. -/
def parseRest (o : Options) (args : List Argument) : Except Refusal Options :=
  match o.command with
  | .worker =>
      match args with
      | [endpoint] => .ok { o with endpoint := ⟨endpoint.val⟩ }
      | _ => refuse (bytes "The worker command must specify the endpoint to connect to.")
  | .proxy =>
      if args = [] then .ok o else refuse (bytes "The proxy command takes no parameters.")
  | .controller =>
      match args with
      | spec :: executable :: args =>
          match Frames.parse spec.val with
          | .error message => .error (.status 1 message)
          | .ok frames =>
              if isPathnameLocal executable.val then
                .ok { o with
                  frames := frames
                  executable := executable.val
                  arguments := o.arguments ++ args.map Subtype.val }
              else refuse (bytes "Executable must be local: " ++ executable.val)
      | _ => refuse (bytes "The controller command must specify the frames and the program to run.")
  | .unittest =>
      if args = [] then .ok o else refuse (bytes "The unittest command takes no parameters.")
  | .unspecified => .error (.thrown (bytes "can't get here"))

/-- The command that the first argument names. -/
def commandOf (arg : Bytes) : Option Command :=
  if arg = bytes "worker" then some .worker
  else if arg = bytes "proxy" then some .proxy
  else if arg = bytes "controller" then some .controller
  else if arg = bytes "unittest" then some .unittest
  else none

/-- `parse_arguments`; what is accepted is returned with 0. -/
def parseArguments (argv : List Argument) : Except Refusal Options :=
  match argv with
  | [] => .error (.thrown (bytes "should have checked empty first"))
  | [_] => .error (.status 2 usage)
  | _ :: arg :: args =>
      if arg.val = bytes "--help" ∨ arg.val = bytes "-h" ∨ arg.val = bytes "help" then
        .error (.status 2 usage)
      else
        match commandOf arg.val with
        | none => refuse (bytes "Command must be the first parameter.")
        | some command => do
            let (o, args) ← parseFlags args.length { make with command := command } args
            parseRest o args

end Options

end Distray
