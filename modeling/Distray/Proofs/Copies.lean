/-
What a successful copy has copied.

A copy reads a file on one machine and writes one on another, and either end can stop
short: `read_file` takes what it has got when a read fails, and `write_file` looks at the
file after it has opened it and never again, while most of the content is still in the
stream's buffer.  The result they report does not depend on how far they got.

`Disk` adds to what the model of the two functions needs the thing they are about, what
the files hold; how far each operation gets is any number.
-/
import Distray.Proofs.Log
import Distray.Worker
import Distray.DrpCodec
import Mathlib.Data.List.TakeDrop

namespace Distray

/-! ### What the files hold

A file that is read delivers the beginning of what it holds, and one that is written holds
the beginning of what it was given.  Both functions report success as soon as the file has
been opened, so whether they were through cannot be told from what they return.
-/

/-- The files of a machine, and how far the next operation on each of them gets. -/
structure Disk where
  content : Bytes → Option Bytes
  /-- How much of a file is read before the read fails or ends; `none` if it does not open. -/
  reads : Bytes → Option Nat
  /-- How much of what is written to a file gets there; `none` if it does not open. -/
  writes : Bytes → Option Nat

namespace Disk

/-- What the two file helpers see of it. -/
def files (d : Disk) : Files where
  openIn name := (d.reads name).bind fun n => (d.content name).map fun content => content.take n
  openOut := d.writes

/-- What a file holds after `write_file`; opening it has emptied it. -/
def afterWrite (d : Disk) (pathname content : Bytes) : Option Bytes :=
  match d.writes (cStr pathname) with
  | some n => some (content.take n)
  | none => d.content (cStr pathname)

/-- The whole file, read under this name. -/
def whole (d : Disk) (pathname : Bytes) : Option Bytes := d.content (cStr pathname)

/-- A read of this file that opens it gets to its end. -/
def ReadsAll (d : Disk) (pathname : Bytes) : Prop :=
  ∀ n ∈ d.reads (cStr pathname), ∀ content ∈ d.whole pathname, content.length ≤ n

/-- A write of this content that opens the file gets to its end. -/
def WritesAll (d : Disk) (pathname content : Bytes) : Prop :=
  ∀ n ∈ d.writes (cStr pathname), content.length ≤ n

/-- What `read_file` returns is what is there, as far as the read gets. -/
theorem readFile_eq_some {d : Disk} {pathname data : Bytes} :
    readFile d.files pathname = some data ↔
      ∃ n ∈ d.reads (cStr pathname), ∃ content ∈ d.whole pathname, content.take n = data := by
  simp [readFile, files, whole, Option.bind_eq_some_iff]

/-- `write_file` succeeds if the file opens, and then the file is what got there. -/
theorem writeFile_eq_true {d : Disk} {pathname content : Bytes} :
    writeFile d.files pathname content = true ↔
      ∃ n ∈ d.writes (cStr pathname), d.afterWrite pathname content = some (content.take n) := by
  simp only [writeFile, files, afterWrite, Option.isSome_iff_exists]
  constructor
  · rintro ⟨n, hn⟩
    exact ⟨n, hn, by rw [hn]⟩
  · rintro ⟨n, hn, -⟩
    exact ⟨n, hn⟩

theorem read_complete_iff (d : Disk) (pathname : Bytes) :
    (∀ data, readFile d.files pathname = some data → d.whole pathname = some data) ↔
      d.ReadsAll pathname := by
  constructor
  · intro hall n hn content hcontent
    have hsome := hall _ (readFile_eq_some.mpr ⟨n, hn, content, hcontent, rfl⟩)
    rw [Option.mem_def.mp hcontent, Option.some.injEq] at hsome
    exact (List.take_eq_self_iff _).mp hsome.symm
  · intro hall data hread
    obtain ⟨n, hn, content, hcontent, rfl⟩ := readFile_eq_some.mp hread
    rw [List.take_of_length_le (hall n hn content hcontent)]
    exact hcontent

theorem write_complete_iff (d : Disk) (pathname content : Bytes) :
    (writeFile d.files pathname content = true → d.afterWrite pathname content = some content) ↔
      d.WritesAll pathname content := by
  constructor
  · intro hall n hn
    have hafter : d.afterWrite pathname content = some (content.take n) := by
      rw [afterWrite, Option.mem_def.mp hn]
    have hsome := hall (writeFile_eq_true.mpr ⟨n, hn, hafter⟩)
    rw [hafter, Option.some.injEq] at hsome
    exact (List.take_eq_self_iff _).mp hsome
  · intro hall hwrite
    obtain ⟨n, hn, hafter⟩ := writeFile_eq_true.mp hwrite
    rw [hafter, List.take_of_length_le (hall n hn)]

/-- From one disk to the other: if both files open, the read and the write get to the end. -/
def Carries (d e : Disk) (source destination : Bytes) : Prop :=
  ∀ content ∈ d.whole source, ∀ n ∈ d.reads (cStr source), ∀ m ∈ e.writes (cStr destination),
    content.length ≤ n ∧ content.length ≤ m

/-- The file `source` of one disk, as far as it was read, was written on the other: all of it. -/
def Transferred (d e : Disk) (source destination : Bytes) : Prop :=
  ∃ data, readFile d.files source = some data ∧ e.afterWrite destination data = d.whole source

/-- A copy whose two ends report success is complete if neither stopped short. -/
theorem transferred_iff {d e : Disk} {source destination data : Bytes}
    (hread : readFile d.files source = some data) :
    (writeFile e.files destination data = true → d.Transferred e source destination) ↔
      d.Carries e source destination := by
  obtain ⟨n, hn, content, hcontent, rfl⟩ := readFile_eq_some.mp hread
  constructor
  · intro htransferred content' hcontent' n' hn' m hm
    rw [Option.mem_unique hcontent' hcontent, Option.mem_unique hn' hn]
    have hafter : e.afterWrite destination (content.take n)
        = some ((content.take n).take m) := by
      rw [afterWrite, Option.mem_def.mp hm]
    obtain ⟨data, hdata, hwhole⟩ := htransferred (writeFile_eq_true.mpr ⟨m, hm, hafter⟩)
    rw [hread, Option.some.injEq] at hdata
    rw [← hdata, hafter, Option.mem_def.mp hcontent, Option.some.injEq, List.take_take,
      List.take_eq_self_iff] at hwhole
    omega
  · intro hcarries hwrite
    obtain ⟨m, hm, hafter⟩ := writeFile_eq_true.mp hwrite
    have hlen := hcarries content hcontent n hn m hm
    refine ⟨_, hread, ?_⟩
    rw [hafter, List.take_take, List.take_of_length_le (by omega)]
    exact (Option.mem_def.mp hcontent).symm

theorem carries_of_unreadable {d e : Disk} {source destination : Bytes}
    (hread : readFile d.files source = none) : d.Carries e source destination := by
  intro content hcontent n hn
  have hsome := readFile_eq_some.mpr ⟨n, hn, content, hcontent, rfl⟩
  rw [hread] at hsome
  exact absurd hsome (by simp)

end Disk

/-! ### What the two handlers of the worker report -/

/-- The worker's environment, with these files. -/
def WorkerEnv.on (env : WorkerEnv) (d : Disk) : WorkerEnv := { env with files := d.files }

/-- `handle_copy_in` gets as far as `write_file`. -/
def WorkerEnv.allows (env : WorkerEnv) (pathname : Bytes) : Bool :=
  isPathnameLocal pathname &&
    match env.stat (cStr pathname) with
    | .failed => false
    | .found mode => mode &&& Worker.executableBits = 0
    | .ENOENT => true

namespace Worker

theorem handleCopyIn_success (env : WorkerEnv) (request : CopyInRequest) :
    (handleCopyIn env request).success
      = (env.allows request.pathname && writeFile env.files request.pathname request.content) := by
  unfold handleCopyIn WorkerEnv.allows
  cases hlocal : isPathnameLocal request.pathname with
  | false => simp [hlocal, CopyInResponse.success]
  | true =>
      cases hstat : env.stat (cStr request.pathname) with
      | ENOENT => simp [hlocal, hstat, CopyInResponse.success]
      | failed => simp [hlocal, hstat, CopyInResponse.success]
      | found mode =>
          by_cases hmode : mode &&& executableBits = 0
          · simp [hlocal, hstat, hmode, CopyInResponse.success]
          · simp [hlocal, hstat, hmode, CopyInResponse.success]

theorem handleCopyOut_success (env : WorkerEnv) (request : CopyOutRequest) :
    (handleCopyOut env request).success
      = (isPathnameLocal request.pathname && (readFile env.files request.pathname).isSome) := by
  unfold handleCopyOut
  cases hlocal : isPathnameLocal request.pathname with
  | false => simp [hlocal, CopyOutResponse.success]
  | true =>
      cases hread : readFile env.files request.pathname with
      | none => simp [hlocal, hread, CopyOutResponse.success]
      | some content => simp [hlocal, hread, CopyOutResponse.success]

/-- A copy-out response that reports success has what was read. -/
theorem handleCopyOut_content {env : WorkerEnv} {request : CopyOutRequest}
    (h : (handleCopyOut env request).success = true) :
    readFile env.files request.pathname = some (handleCopyOut env request).content := by
  have hboth := h
  rw [handleCopyOut_success, Bool.and_eq_true] at hboth
  obtain ⟨content, hcontent⟩ := Option.isSome_iff_exists.mp hboth.2
  simp [handleCopyOut, hboth.1, hcontent, CopyOutResponse.content]

/-- A copy-in that reports success has put the whole content into the file. -/
def CopiedIn (env : WorkerEnv) (d : Disk) (request : CopyInRequest) : Prop :=
  (handleCopyIn (env.on d) request).success = true →
    d.afterWrite request.pathname request.content = some request.content

/-- A copy-out that reports success has the whole file in its response. -/
def CopiedOut (env : WorkerEnv) (d : Disk) (request : CopyOutRequest) : Prop :=
  (handleCopyOut (env.on d) request).success = true →
    d.whole request.pathname = some (handleCopyOut (env.on d) request).content

theorem copiedIn_iff (env : WorkerEnv) (d : Disk) (request : CopyInRequest) :
    CopiedIn env d request ↔
      (env.allows request.pathname = true → d.WritesAll request.pathname request.content) := by
  have hallows : (env.on d).allows request.pathname = env.allows request.pathname := rfl
  rw [CopiedIn, handleCopyIn_success, hallows, Bool.and_eq_true, and_imp, WorkerEnv.on,
    Disk.write_complete_iff]

theorem copiedOut_iff (env : WorkerEnv) (d : Disk) (request : CopyOutRequest) :
    CopiedOut env d request ↔
      (isPathnameLocal request.pathname = true → d.ReadsAll request.pathname) := by
  rw [← Disk.read_complete_iff]
  constructor
  · intro h hlocal data hread
    have hsuccess : (handleCopyOut (env.on d) request).success = true := by
      rw [handleCopyOut_success, hlocal, WorkerEnv.on, hread]
      rfl
    have hcontent : some data = some _ := hread.symm.trans (handleCopyOut_content hsuccess)
    rw [hcontent]
    exact h hsuccess
  · intro h hsuccess
    have hlocal := hsuccess
    rw [handleCopyOut_success, Bool.and_eq_true] at hlocal
    exact h hlocal.1 _ (handleCopyOut_content hsuccess)

end Worker

/-! ### What the controller takes for a copy -/

namespace RemoteWorker

variable {codec : Codec} {p : Parameters}

/-- `handle_copy_file_out_response` has put the whole content into the file if it returns. -/
def StoresAll (d : Disk) (w : RemoteWorker) (response : Response) (frame : Int)
    (fileCopy : FileCopy) : Prop :=
  (∃ w', w.handleCopyFileOutResponse d.files response frame fileCopy = .ok w') →
    d.afterWrite (substituteParameter fileCopy.destination frame) response.copyOutResponse.content
      = some response.copyOutResponse.content

theorem handleCopyFileOutResponse_returns_iff (files : Files) (w : RemoteWorker)
    (response : Response) (frame : Int) (fileCopy : FileCopy) :
    (∃ w', w.handleCopyFileOutResponse files response frame fileCopy = .ok w') ↔
      response.copyOutResponse.success = true ∧
        writeFile files (substituteParameter fileCopy.destination frame)
          response.copyOutResponse.content = true := by
  unfold handleCopyFileOutResponse
  cases response.copyOutResponse.success with
  | false => simp
  | true =>
      by_cases hwrite : writeFile files (substituteParameter fileCopy.destination frame)
        response.copyOutResponse.content = true
      · simp [hwrite]
      · simp [hwrite]

theorem storesAll_iff (d : Disk) (w : RemoteWorker) (response : Response) (frame : Int)
    (fileCopy : FileCopy) :
    StoresAll d w response frame fileCopy ↔
      (response.copyOutResponse.success = true →
        d.WritesAll (substituteParameter fileCopy.destination frame)
          response.copyOutResponse.content) := by
  rw [StoresAll, handleCopyFileOutResponse_returns_iff, and_imp, Disk.write_complete_iff]

/-! ### One exchange

A file is copied by two machines and an exchange of messages, and either machine can stop
short at its own end.  The controller goes on exactly when the answer says that all is well,
so the two ends have to be looked at together.
-/

/-- The answer to the last request has arrived; meanwhile only the buffers have changed. -/
structure Answered (codec : Codec) (env : WorkerEnv) (w w' : RemoteWorker) : Prop where
  same : ∃ outgoing incoming,
    w' = { w with outgoingBuffer := outgoing, incomingBuffer := incoming }
  response : ∃ sent ∈ w.requests.getLast?,
    codec.parseResponse w'.incomingBuffer.getMessage = some (Worker.handle env sent.1)

/--
A request for `job` is sent with the files of `here`, and the worker answers it with
the files of `there`.
-/
structure Exchanged (codec : Codec) (p : Parameters) (here there : Disk) (env : WorkerEnv)
    (job : Job) (w w₁ w₂ : RemoteWorker) : Prop where
  sent : w.dispatchStep codec p here.files = .ok w₁
  awaited : awaited p w₁ = some job
  answered : Answered codec (env.on there) w₁ w₂

/-- The next turn goes on. -/
def Passes (codec : Codec) (p : Parameters) (files : Files) (w : RemoteWorker) : Prop :=
  ∃ w', w.dispatchStep codec p files = .ok w'

theorem last_request (w : RemoteWorker) (request : Request) (source : Option (Bytes × Bytes))
    (next : State) :
    (w.sendRequest codec request source next).requests.getLast? = some (request, source) := by
  simp [requests, sendRequest]

/-- A turn after which a response is awaited has sent the request for it. -/
theorem Turn.asks {files : Files} {w w' : RemoteWorker} {job : Job} (h : Turn codec p files w w')
    (hawaited : awaited p w' = some job) :
    ∃ request source, w'.requests.getLast? = some (request, source) ∧ job.Asks request source ∧
      ∀ src dst, job = .copyIn src dst →
        readFile files src = some request.copyInRequest.content := by
  cases h with
  | inSent hpass hs hcopy hmatch hread =>
      refine ⟨_, _, last_request w _ _ _, ?_⟩
      -- both passes over the in-copies ask in the same way
      cases hpass
      all_goals
        simp only [RemoteWorker.awaited, sendRequest, hcopy, Option.map_some,
          Option.some.injEq] at hawaited
        subst hawaited
        refine ⟨⟨_, rfl, rfl⟩, ?_⟩
        rintro src dst ⟨rfl, rfl⟩
        exact hread
  | outSent hs hcopy =>
      simp only [RemoteWorker.awaited, sendRequest, hcopy, Option.map_some,
        Option.some.injEq] at hawaited
      subst hawaited
      exact ⟨_, _, last_request w _ _ _, ⟨rfl, rfl⟩, by simp⟩
  | sendWelcome =>
      simp only [RemoteWorker.awaited, sendRequest, Option.some.injEq] at hawaited
      subst hawaited
      exact ⟨_, _, last_request w _ _ _, ⟨rfl, rfl⟩, by simp⟩
  | sendExecute =>
      simp only [RemoteWorker.awaited, sendRequest, Option.some.injEq] at hawaited
      subst hawaited
      exact ⟨_, _, last_request w _ _ _, ⟨rfl, rfl⟩, by simp [executeJob]⟩
  | welcomed => simp [RemoteWorker.awaited] at hawaited
  | inSkipped hpass hs => cases hpass <;> simp [RemoteWorker.awaited, hs] at hawaited
  | inFinished hpass => cases hpass <;> simp [RemoteWorker.awaited] at hawaited
  | inReceived hpass => cases hpass <;> simp [RemoteWorker.awaited] at hawaited
  | executed => simp [RemoteWorker.awaited] at hawaited
  | outSkipped hs => simp [RemoteWorker.awaited, hs] at hawaited
  | outFinished => simp [RemoteWorker.awaited] at hawaited
  | outReceived => simp [RemoteWorker.awaited] at hawaited
  | unimplemented hs => rcases hs with hs | hs | hs <;> simp [RemoteWorker.awaited, hs] at hawaited

theorem state_of_copyIn {w : RemoteWorker} {source destination : Bytes}
    (h : awaited p w = some (.copyIn source destination)) :
    w.state = .receiveCopyInNonFrameFile ∨ w.state = .receiveCopyInFrameFile := by
  cases hs : w.state <;> simp [awaited, hs, executeJob] at h ⊢

theorem state_of_copyOut {w : RemoteWorker} {source destination : Bytes}
    (h : awaited p w = some (.copyOut source destination)) :
    w.state = .receiveCopyOutFrameFile ∧ ∃ fileCopy, p.outCopies[w.stateIndex]? = some fileCopy ∧
      substituteParameter fileCopy.destination w.frame = destination := by
  cases hs : w.state <;> simp [awaited, hs, executeJob] at h ⊢
  obtain ⟨fileCopy, hcopy, -, hdestination⟩ := h
  exact ⟨fileCopy, hcopy, hdestination⟩

/-- A worker goes on from a copy-in if the response says so. -/
theorem passes_copyIn_iff {files : Files} {w : RemoteWorker} {r : Response}
    (hs : w.state = .receiveCopyInNonFrameFile ∨ w.state = .receiveCopyInFrameFile)
    (hparse : codec.parseResponse w.incomingBuffer.getMessage = some r)
    (htype : r.requestType = .copyIn) :
    w.Passes codec p files ↔ r.copyInResponse.success = true := by
  unfold Passes dispatchStep
  cases hsuccess : r.copyInResponse.success <;>
    rcases hs with hs | hs <;> simp [hs, receiveResponse, hparse, htype, hsuccess]

/-- A worker goes on from a copy-out if `handle_copy_file_out_response` returns. -/
theorem passes_copyOut_iff {files : Files} {w : RemoteWorker} {r : Response} {fileCopy : FileCopy}
    (hs : w.state = .receiveCopyOutFrameFile)
    (hparse : codec.parseResponse w.incomingBuffer.getMessage = some r)
    (htype : r.requestType = .copyOut) (hcopy : p.outCopies[w.stateIndex]? = some fileCopy) :
    w.Passes codec p files ↔ r.copyOutResponse.success = true ∧
      writeFile files (substituteParameter fileCopy.destination w.frame)
        r.copyOutResponse.content = true := by
  have hstep : w.dispatchStep codec p files =
      (w.decoded r).handleCopyFileOutResponse files r w.frame fileCopy >>= fun w =>
        pure { w with stateIndex := w.stateIndex + 1, state := .sendCopyOutFrameFile } := by
    have hcopy' : p.outCopies[(w.decoded r).stateIndex]? = some fileCopy := hcopy
    unfold dispatchStep
    simp only [hs, receiveResponse, hparse, htype, ne_eq, not_true_eq_false, if_false,
      Outcome.ok_bind, hcopy']
    rfl
  rw [← handleCopyFileOutResponse_returns_iff files (w.decoded r) r w.frame fileCopy, Passes, hstep]
  constructor
  · rintro ⟨w', h⟩
    obtain ⟨w₁, h₁, -⟩ := Outcome.bind_eq_ok.mp h
    exact ⟨w₁, h₁⟩
  · rintro ⟨w₁, h₁⟩
    exact ⟨_, Outcome.bind_eq_ok.mpr ⟨w₁, h₁, rfl⟩⟩

/-- The response to a job is what the worker makes of the request for it. -/
theorem Exchanged.answer {here there : Disk} {env : WorkerEnv} {job : Job}
    {w w₁ w₂ : RemoteWorker} (h : Exchanged codec p here there env job w w₁ w₂) :
    ∃ request source, job.Asks request source ∧
      (∀ src dst, job = .copyIn src dst →
        readFile here.files src = some request.copyInRequest.content) ∧
      codec.parseResponse w₂.incomingBuffer.getMessage
        = some (Worker.handle (env.on there) request) ∧
      RemoteWorker.awaited p w₂ = some job := by
  obtain ⟨request, source, hlast, hasks, hread⟩ := (turn_of_dispatchStep h.sent).asks h.awaited
  obtain ⟨sent, hsent, hparse⟩ := h.answered.response
  rw [hlast, Option.mem_def, Option.some.injEq] at hsent
  subst hsent
  obtain ⟨outgoing, incoming, rfl⟩ := h.answered.same
  exact ⟨request, source, hasks, hread, hparse, h.awaited⟩

theorem Exchanged.copyIn_iff {here there : Disk} {env : WorkerEnv} {source destination : Bytes}
    {w w₁ w₂ : RemoteWorker}
    (h : Exchanged codec p here there env (.copyIn source destination) w w₁ w₂) (files : Files) :
    (w₂.Passes codec p files → here.Transferred there source destination) ↔
      (env.allows destination = true → here.Carries there source destination) := by
  obtain ⟨request, -, ⟨content, rfl, -⟩, hread, hparse, hawaited⟩ := h.answer
  have hsuccess := Worker.handleCopyIn_success (env.on there) ⟨some destination, some content⟩
  have hallows : (env.on there).allows destination = env.allows destination := rfl
  rw [passes_copyIn_iff (state_of_copyIn hawaited) hparse rfl,
    ← Disk.transferred_iff (hread source destination rfl)]
  show ((Worker.handleCopyIn (env.on there) ⟨some destination, some content⟩).success = true →
    here.Transferred there source destination) ↔ _
  rw [hsuccess, Bool.and_eq_true, and_imp]
  exact Iff.rfl

theorem Exchanged.copyOut_iff {here there : Disk} {env : WorkerEnv} {source destination : Bytes}
    {w w₁ w₂ : RemoteWorker}
    (h : Exchanged codec p here there env (.copyOut source destination) w w₁ w₂) (later : Disk) :
    (w₂.Passes codec p later.files → there.Transferred later source destination) ↔
      (isPathnameLocal source = true → there.Carries later source destination) := by
  obtain ⟨request, -, ⟨rfl, -⟩, -, hparse, hawaited⟩ := h.answer
  obtain ⟨hs, fileCopy, hcopy, rfl⟩ := state_of_copyOut hawaited
  rw [passes_copyOut_iff hs hparse rfl hcopy]
  show ((Worker.handleCopyOut (env.on there) ⟨some source⟩).success = true ∧
    writeFile later.files _ (Worker.handleCopyOut (env.on there) ⟨some source⟩).content = true →
      _) ↔ _
  have hsuccess := Worker.handleCopyOut_success (env.on there) ⟨some source⟩
  cases hread : readFile there.files source with
  | none =>
      have hfails : (Worker.handleCopyOut (env.on there) ⟨some source⟩).success = false := by
        rw [hsuccess]
        exact Bool.and_eq_false_imp.mpr fun _ => congrArg Option.isSome hread
      rw [hfails]
      exact iff_of_true (by simp) fun _ => Disk.carries_of_unreadable hread
  | some data =>
      rw [← Disk.transferred_iff hread]
      constructor
      · intro htransferred hlocal hwrite
        have hsucceeds : (Worker.handleCopyOut (env.on there) ⟨some source⟩).success = true := by
          rw [hsuccess]
          exact (Bool.and_eq_true _ _).mpr ⟨hlocal, congrArg Option.isSome hread⟩
        have hdata := hread.symm.trans (Worker.handleCopyOut_content hsucceeds)
        rw [Option.some.injEq] at hdata
        exact htransferred ⟨hsucceeds, hdata ▸ hwrite⟩
      · rintro htransferred ⟨hsucceeds, hwrite⟩
        have hlocal := hsucceeds
        rw [hsuccess, Bool.and_eq_true] at hlocal
        have hdata := hread.symm.trans (Worker.handleCopyOut_content hsucceeds)
        rw [Option.some.injEq] at hdata
        exact htransferred hlocal.1 (hdata ▸ hwrite)

/--
**When a copy that was reported as successful is complete.**  Each of the three
functions reports success for a part of a file if and only if its one operation can
open the file and stop short of the end; and a remote worker goes on with only a part of
the file at the other end if and only if the read or the write can.
-/
theorem copies_complete_iff (codec : Codec) (p : Parameters) :
    (∀ (env : WorkerEnv) (d : Disk) (request : CopyInRequest),
      Worker.CopiedIn env d request ↔
        (env.allows request.pathname = true → d.WritesAll request.pathname request.content)) ∧
    (∀ (env : WorkerEnv) (d : Disk) (request : CopyOutRequest),
      Worker.CopiedOut env d request ↔
        (isPathnameLocal request.pathname = true → d.ReadsAll request.pathname)) ∧
    (∀ (d : Disk) (w : RemoteWorker) (response : Response) (frame : Int) (fileCopy : FileCopy),
      StoresAll d w response frame fileCopy ↔
        (response.copyOutResponse.success = true →
          d.WritesAll (substituteParameter fileCopy.destination frame)
            response.copyOutResponse.content)) ∧
    (∀ (here there later : Disk) (env : WorkerEnv) (source destination : Bytes)
      (w w₁ w₂ : RemoteWorker),
      Exchanged codec p here there env (.copyIn source destination) w w₁ w₂ →
      ((w₂.Passes codec p later.files → here.Transferred there source destination) ↔
        (env.allows destination = true → here.Carries there source destination))) ∧
    ∀ (here there later : Disk) (env : WorkerEnv) (source destination : Bytes)
      (w w₁ w₂ : RemoteWorker),
      Exchanged codec p here there env (.copyOut source destination) w w₁ w₂ →
      ((w₂.Passes codec p later.files → there.Transferred later source destination) ↔
        (isPathnameLocal source = true → there.Carries later source destination)) :=
  ⟨Worker.copiedIn_iff, Worker.copiedOut_iff, storesAll_iff,
    fun _ _ later _ _ _ _ _ _ h => h.copyIn_iff later.files,
    fun _ _ later _ _ _ _ _ _ h => h.copyOut_iff later⟩

/-! One file is copied in, from a disk on which it can be read to one with so much room. -/

def withRoom (room : Nat) : Disk where
  content _ := some (bytes "data")
  reads _ := some 4
  writes _ := some room

def newFile : WorkerEnv where
  hostname := none
  hardwareConcurrency := 8
  stat _ := .ENOENT
  files := ⟨fun _ => none, fun _ => none⟩
  fork := .waited (.exited 0)

def oneCopy : Parameters where
  frames := ⟨1, 1, 1⟩
  inCopies := [.make (bytes "scene") (bytes "scene")]
  executable := bytes "render"

def sceneRequest : Request := copyInRequest (bytes "scene") (bytes "data")

/-- The worker is about to send the file, -/
def sending : RemoteWorker := { RemoteWorker.make 0 4 with state := .sendCopyInNonFrameFile }

/-- has the request for it in its buffer, -/
def asking : RemoteWorker :=
  sending.sendRequest drpCodec sceneRequest (some (bytes "scene", bytes "data"))
    .receiveCopyInNonFrameFile

/-- and has received the response. -/
def hearing (room : Nat) : RemoteWorker :=
  let data := drpCodec.serializeResponse (Worker.handle (newFile.on (withRoom room)) sceneRequest)
  { asking with incomingBuffer := ⟨4, data, data.length, true, data.length, data.length⟩ }

theorem heard (room : Nat) :
    drpCodec.parseResponse (hearing room).incomingBuffer.getMessage
      = some (Worker.handle (newFile.on (withRoom room)) sceneRequest) := by
  rw [hearing, IncomingBuffer.getMessage, List.take_length]
  exact drpCodec_sound.response _

theorem exchanged (room : Nat) : Exchanged drpCodec oneCopy (withRoom 4) (withRoom room) newFile
    (.copyIn (bytes "scene") (bytes "scene")) sending asking (hearing room) where
  sent := by decide +kernel
  awaited := by decide +kernel
  answered :=
    { same := ⟨_, _, rfl⟩
      response := ⟨_, rfl, heard room⟩ }

theorem passed (room : Nat) (files : Files) : (hearing room).Passes drpCodec oneCopy files :=
  (passes_copyIn_iff (Or.inl rfl) (heard room) rfl).mpr rfl

theorem copies_complete_withRoom :
    Worker.CopiedIn newFile (withRoom 4) ⟨some (bytes "scene"), some (bytes "data")⟩ ∧
    (withRoom 4).Transferred (withRoom 4) (bytes "scene") (bytes "scene") := by
  obtain ⟨hin, -, -, hpass, -⟩ := copies_complete_iff drpCodec oneCopy
  refine ⟨(hin _ _ _).mpr fun _ => ?_, ?_⟩
  · rintro n ⟨rfl⟩
    decide
  · refine (hpass _ _ (withRoom 4) _ _ _ _ _ _ (exchanged 4)).mpr (fun _ => ?_) (passed 4 _)
    rintro content ⟨rfl⟩ n ⟨rfl⟩ m ⟨rfl⟩
    decide

/-- The disk is full after one byte: the worker reports success, and the controller goes on. -/
theorem copies_not_complete :
    (¬ ∀ (env : WorkerEnv) (d : Disk) (request : CopyInRequest), Worker.CopiedIn env d request) ∧
    ¬ ∀ (codec : Codec) (p : Parameters) (here there later : Disk) (env : WorkerEnv)
      (source destination : Bytes) (w w₁ w₂ : RemoteWorker),
      Exchanged codec p here there env (.copyIn source destination) w w₁ w₂ →
      w₂.Passes codec p later.files → here.Transferred there source destination := by
  constructor
  · intro h
    have hcopied := h newFile (withRoom 1) ⟨some (bytes "scene"), some (bytes "data")⟩
      (by decide +kernel)
    exact absurd hcopied (by decide +kernel)
  · intro h
    obtain ⟨data, hdata, hwhole⟩ := h drpCodec oneCopy (withRoom 4) (withRoom 1) (withRoom 4)
      newFile (bytes "scene") (bytes "scene") sending asking (hearing 1) (exchanged 1) (passed 1 _)
    have hread : readFile (withRoom 4).files (bytes "scene") = some (bytes "data") := by
      decide +kernel
    rw [hread, Option.some.injEq] at hdata
    exact absurd (hdata ▸ hwhole) (by decide +kernel)

end RemoteWorker

end Distray
