/-
The worker, as in `worker.cpp`.

The four handlers turn a request into a response, given what the operating system
answers while they run.  `handle_execute` forks a child and waits for it; what it
learns about the child is the word `wait4` stores, and what it reports is
`WEXITSTATUS` of that word.  When `fork` fails there is no child to wait for, and when
`wait4` fails it says nothing about the child there was; the code looks at the results of
neither, nothing is stored, and the word is whatever was on the stack.
-/
import Distray.Wire
import Distray.Outcome

namespace Distray

/-- What `stat` says about a file. -/
inductive Stat
  | ENOENT
  | failed
  | found (mode : Nat)
deriving DecidableEq, Repr

/-- How the child that `handle_execute` forks comes to its end. -/
inductive Child
  /-- It could not execute the program and called `exit(-1)`. -/
  | execvFailed
  | exited (code : UInt8)
  /-- It was killed, perhaps leaving a core file. -/
  | signaled (signal : { n : UInt8 // 0 < n ∧ n < 127 }) (core : Bool)
deriving DecidableEq, Repr

/-- The status word that the system keeps of it. -/
def Child.waitStatus : Child → UInt32
  | .execvFailed => (255 : UInt32) <<< 8
  | .exited code => code.toUInt32 <<< 8
  | .signaled signal core => signal.val.toUInt32 ||| (if core then 0x80 else 0)

/-- How the `fork` and the `wait4` in `handle_execute` turned out. -/
inductive Ending
  /-- There is no child. -/
  | forkFailed (garbage : UInt32)
  | waited (child : Child)
  /-- The child came to its end, but `wait4` failed, as it does with `ECHILD` in a program
  that was started with `SIGCHLD` ignored. -/
  | waitFailed (child : Child) (garbage : UInt32)
deriving DecidableEq, Repr

namespace Ending

/-- The variable `status` after `wait4`; where nothing wrote it, what was on the stack. -/
def waitStatus : Ending → UInt32
  | .forkFailed garbage => garbage
  | .waited child => child.waitStatus
  | .waitFailed _ garbage => garbage

/-- The child, if there was one. -/
def child? : Ending → Option Child
  | .forkFailed _ => none
  | .waited child | .waitFailed child _ => some child

end Ending

/-- `WEXITSTATUS`: the second octet of the status word. -/
def WEXITSTATUS (status : UInt32) : Int32 := Int32.ofNat ((status &&& 0xff00) >>> 8).toNat

theorem WEXITSTATUS_eq (status : UInt32) :
    WEXITSTATUS status = Int32.ofNat (status.toNat / 256 % 256) := by
  have h : ((status &&& 0xff00) >>> 8).toNat = status.toNat / 256 % 256 := by
    rw [UInt32.toNat_shiftRight, UInt32.toNat_and]
    show (status.toNat &&& 0xff00) >>> 8 = _
    rw [Nat.shiftRight_and_distrib, Nat.shiftRight_eq_div_pow]
    exact Nat.and_two_pow_sub_one_eq_mod _ 8
  rw [WEXITSTATUS, h]

theorem WEXITSTATUS_eq_zero (status : UInt32) :
    WEXITSTATUS status = 0 ↔ status.toNat / 256 % 256 = 0 := by
  rw [WEXITSTATUS_eq]
  constructor
  · intro h
    have hint := congrArg Int32.toInt h
    rw [Int32.toInt_ofNat_of_lt (by omega), Int32.toInt_zero] at hint
    omega
  · intro h
    rw [h]
    rfl

/-- What the operating system answers while a request is handled. -/
structure WorkerEnv where
  /-- `gethostname`; `none` when it fails. -/
  hostname : Option Bytes
  hardwareConcurrency : Int32
  stat : Bytes → Stat
  files : Files
  fork : Ending

namespace Worker

variable (env : WorkerEnv)

def handleWelcome : WelcomeResponse where
  hostname? := some (match env.hostname with
    | some hostname => hostname
    | none => bytes "unknown")
  coreCount? := some env.hardwareConcurrency

/-- `S_IXUSR|S_IXGRP|S_IXOTH`. -/
def executableBits : Nat := 0o111

def handleCopyIn (request : CopyInRequest) : CopyInResponse :=
  let pathname := request.pathname
  if !isPathnameLocal pathname then { success? := some false }
  else
    match env.stat (cStr pathname) with
    | .failed => { success? := some false }
    | .found mode =>
        if mode &&& executableBits ≠ 0 then { success? := some false }
        else { success? := some (writeFile env.files pathname request.content) }
    | .ENOENT => { success? := some (writeFile env.files pathname request.content) }

def handleExecute (request : ExecuteRequest) : ExecuteResponse :=
  if !isPathnameLocal request.executable then { status? := some (-1) }
  else { status? := some (WEXITSTATUS env.fork.waitStatus) }

def handleCopyOut (request : CopyOutRequest) : CopyOutResponse :=
  let pathname := request.pathname
  if !isPathnameLocal pathname then { success? := some false }
  else
    match readFile env.files pathname with
    | some content => { content? := some content, success? := some true }
    | none => { success? := some false }

/-- What `start_worker`'s loop does with a request. -/
def handle (request : Request) : Response :=
  let response : Response := { requestType? := some request.requestType }
  match request.requestType with
  | .welcome => { response with welcomeResponse? := some (handleWelcome env) }
  | .copyIn => { response with copyInResponse? := some (handleCopyIn env request.copyInRequest) }
  | .execute =>
      { response with executeResponse? := some (handleExecute env request.executeRequest) }
  | .copyOut =>
      { response with copyOutResponse? := some (handleCopyOut env request.copyOutRequest) }

/-- The response has the type of the request. -/
@[simp] theorem handle_requestType (request : Request) :
    (handle env request).requestType = request.requestType := by
  unfold handle
  cases h : request.requestType <;> rfl

/-- The status in an execute response is what `handle_execute` made of the child. -/
theorem handle_executeResponse {request : Request} (h : request.requestType = .execute) :
    (handle env request).executeResponse = handleExecute env request.executeRequest := by
  unfold handle
  rw [h]
  rfl

end Worker

/-! ### The process

The worker receives, handles and sends, and does nothing else.  A message is taken out of
the queue in one step, when it is all there, because that is how long `receive_message`
blocks; whether it could be parsed is seen only then.
-/

/-- Where `start_worker`'s loop is. -/
inductive Process
  /-- In `receive_message`. -/
  | receiving
  /-- In one of the handlers. -/
  | handling (request : Request)
  /-- In `send_message`. -/
  | sending (response : Response)
  /-- The program is over. -/
  | returned (code : Int)
deriving DecidableEq, Repr

/-- The worker waits for a request, or there is no worker any more. -/
def Process.waiting : Process → Bool
  | .receiving | .returned _ => true
  | _ => false

/-- What `receive_message` leads to, given the bytes that have arrived and the rest of them. -/
def Process.received (codec : Codec) (stream : Bytes) : Option (Process × Bytes) :=
  match receiveMessage stream with
  | none => none
  | some (.closed, rest) => some (.returned 0, rest)
  | some (.message data, rest) =>
      match codec.parseRequest data with
      | none => some (.returned (-1), rest)
      | some request => some (.handling request, rest)

/-- What can come of a call of `receive_message`. -/
theorem Process.received_cases {codec : Codec} {stream rest : Bytes} {process : Process}
    (h : Process.received codec stream = some (process, rest)) :
    ∃ data, lengthHeader.takeFrame stream = some (data, rest) ∧
      (process = .returned 0 ∨
        (codec.parseRequest data = none ∧ process = .returned (-1)) ∨
        ∃ request, codec.parseRequest data = some request ∧ process = .handling request) := by
  unfold Process.received receiveMessage at h
  cases htake : lengthHeader.takeFrame stream with
  | none => simp [htake] at h
  | some taken =>
      obtain ⟨data, rest'⟩ := taken
      simp only [htake] at h
      by_cases hlen : data.length = 0
      · simp only [if_pos hlen, Option.some.injEq, Prod.mk.injEq] at h
        obtain ⟨rfl, rfl⟩ := h
        exact ⟨data, rfl, Or.inl rfl⟩
      · simp only [if_neg hlen] at h
        split at h
        · rename_i hparse
          simp only [Option.some.injEq, Prod.mk.injEq] at h
          obtain ⟨rfl, rfl⟩ := h
          exact ⟨data, rfl, Or.inr (Or.inl ⟨hparse, rfl⟩)⟩
        · rename_i request hparse
          simp only [Option.some.injEq, Prod.mk.injEq] at h
          obtain ⟨rfl, rfl⟩ := h
          exact ⟨data, rfl, Or.inr (Or.inr ⟨request, hparse, rfl⟩)⟩

end Distray
