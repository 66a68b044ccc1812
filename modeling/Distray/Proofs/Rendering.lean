/-
When a frame counts as rendered.

The controller goes by the status in the execute response, the worker takes that from
the status word of its child, and `WEXITSTATUS` keeps one octet of the word.  That the
response the controller reads is the one to its own request, with the status of the
very execution it asked for, needs the whole system to be in step, for every worker
at once; that the status then says little about a child that was killed, or that never
was, is a matter of which octet `WEXITSTATUS` keeps.
-/
import Distray.Proofs.Conservation
import Distray.Proofs.Connected

namespace Distray

/-! ### What the status tells -/

/--
Whether the status tells a failure from a success.  It does when `wait4` has told of a
child that exited by itself.  Where `wait4` has told nothing, the word on the stack must
not look like success, unless the child that was there did succeed.
-/
def Ending.Reported : Ending → Prop
  | .forkFailed garbage => garbage.toNat / 256 % 256 ≠ 0
  | .waited .execvFailed | .waited (.exited _) => True
  | .waited (.signaled _ _) => False
  | .waitFailed child garbage => child = .exited 0 ∨ garbage.toNat / 256 % 256 ≠ 0

def Execution.Reported : Execution → Prop
  | .refused => True
  | .ran ending => ending.Reported

/-- The low octet of the status word of a killed child is all there is to it. -/
theorem Child.waitStatus_signaled (signal : { n : UInt8 // 0 < n ∧ n < 127 }) (core : Bool) :
    (Child.signaled signal core).waitStatus.toNat < 256 := by
  have hlt := signal.val.toNat_lt
  cases core with
  | false => simpa [waitStatus] using hlt
  | true =>
      simp only [waitStatus, if_true, UInt32.toNat_or]
      exact Nat.or_lt_two_pow (n := 8) (by simpa using hlt) (by decide)

theorem Child.waitStatus_exited (code : UInt8) :
    (Child.exited code).waitStatus.toNat = code.toNat * 256 := by
  have hlt := code.toNat_lt
  simp only [waitStatus, UInt32.toNat_shiftLeft]
  simp [Nat.shiftLeft_eq]
  omega

/-- **Where the status does not take a failure for a success.** -/
theorem Ending.reported_iff (e : Ending) :
    e.Reported ↔ (WEXITSTATUS e.waitStatus = 0 → e.child? = some (.exited 0)) := by
  rw [WEXITSTATUS_eq_zero]
  cases e with
  | forkFailed garbage => simp [waitStatus, child?, Reported]
  | waited child =>
      cases child with
      | execvFailed => simp [waitStatus, Child.waitStatus, Reported]
      | exited code =>
          have hlt := code.toNat_lt
          rw [waitStatus, Child.waitStatus_exited, Nat.mul_div_cancel _ (by omega),
            Nat.mod_eq_of_lt (by omega)]
          simp [Reported, child?, ← UInt8.toNat_inj]
      | signaled signal core =>
          have hlt := Child.waitStatus_signaled signal core
          rw [waitStatus, Nat.div_eq_of_lt hlt]
          simp [Reported, child?]
  | waitFailed child garbage =>
      simp only [waitStatus, child?, Reported, Option.some.injEq]
      constructor
      · rintro (hchild | hgarbage) hzero
        · exact hchild
        · exact absurd hzero hgarbage
      · intro h
        by_cases hzero : garbage.toNat / 256 % 256 = 0
        · exact Or.inl (h hzero)
        · exact Or.inr hzero

theorem Execution.reported_iff (x : Execution) : x.Reported ↔ (x.status = 0 → x.Succeeded) := by
  cases x with
  | refused => simp [Reported, status]
  | ran ending =>
      have hsucceeded : (Execution.ran ending).Succeeded ↔ ending.child? = some (.exited 0) := by
        simp [Succeeded]
      rw [Reported, status, hsucceeded]
      exact ending.reported_iff

/-- The child exits with 0, and `wait4` tells of it. -/
def Ending.clean : Ending := .waited (.exited 0)

/-! ### The execute response

The number that the controller compares with 0 has come a long way: from the status word
through `WEXITSTATUS`, into a response, through the queues and out of the parser.  Being in
step is what makes it the number that belongs to the execution it was asked for.
-/

namespace RemoteWorker

variable {codec : Codec} {p : Parameters} {files : Files}

theorem dispatchStep_execute {w : RemoteWorker} {r : Response}
    (hs : w.state = .receiveExecuteResponse)
    (hparse : codec.parseResponse w.incomingBuffer.getMessage = some r)
    (htype : r.requestType = .execute) :
    w.dispatchStep codec p files =
      if r.executeResponse.status ≠ 0 then .exit (.executeFailed r.executeResponse.status)
      else .ok { w.decoded r with state := .sendCopyOutFrameFile, stateIndex := 0 } := by
  unfold dispatchStep
  rw [hs]
  simp only [receiveResponse, hparse, htype]
  rfl

/-- Whether the next turn goes from `RECEIVE_EXECUTE_RESPONSE` to `SEND_COPY_OUT_FRAME_FILE`. -/
def proceeds (codec : Codec) (p : Parameters) (files : Files) (w : RemoteWorker) : Bool :=
  match w.dispatchStep codec p files with
  | .ok w' => w'.state = .sendCopyOutFrameFile
  | _ => false

theorem proceeds_iff {w : RemoteWorker} {r : Response} (hs : w.state = .receiveExecuteResponse)
    (hparse : codec.parseResponse w.incomingBuffer.getMessage = some r)
    (htype : r.requestType = .execute) :
    w.proceeds codec p files = true ↔ r.executeResponse.status = 0 := by
  rw [proceeds, dispatchStep_execute hs hparse htype]
  by_cases hstatus : r.executeResponse.status = 0
  · simp [hstatus]
  · simp [hstatus]

/-- A status that is not 0 ends the program. -/
theorem receive_execute_failed {w : RemoteWorker} {data : Bytes} {b : IncomingBuffer}
    {r : Response} (hs : w.state = .receiveExecuteResponse)
    (hb : w.incomingBuffer.receive (.ok data) = .ok (.ok b)) (hdone : b.needReceive = false)
    (hparse : codec.parseResponse b.getMessage = some r) (htype : r.requestType = .execute)
    (hstatus : r.executeResponse.status ≠ 0) :
    w.receive codec p files (.ok data) = .exit (.executeFailed r.executeResponse.status) := by
  have hstep : ({ w with incomingBuffer := b } : RemoteWorker).dispatchStep codec p files
      = .exit (.executeFailed r.executeResponse.status) := by
    rw [dispatchStep_execute (w := { w with incomingBuffer := b }) hs hparse htype, if_pos hstatus]
  have hdispatch : ({ w with incomingBuffer := b } : RemoteWorker).dispatch codec p files
      = .exit (.executeFailed r.executeResponse.status) := by
    unfold dispatch dispatchFuel
    rw [dispatchLoop, hstep, Outcome.exit_bind]
  simp [receive, hb, hdone, hdispatch]

end RemoteWorker

namespace System

open RemoteWorker Controller

variable {codec : Codec} {p : Parameters} {hops : Nat → Nat}

/--
`data` completes the execute response of `w`, whose entry is the one at hand; `w'` is
what `dispatch` is called on.
-/
structure CompletesExecute (s : System) (data : Bytes) (w w' : RemoteWorker) : Prop where
  entry : ∃ i, s.controller.pc = .receiving (i + 1) ∧ s.controller.remoteWorkers[i]? = some w
  state : w.state = .receiveExecuteResponse
  complete : ∃ b, w.incomingBuffer.receive (.ok data) = .ok (.ok b) ∧ b.needReceive = false ∧
    w' = { w with incomingBuffer := b }

/--
The frame counts as rendered only if the execution succeeded, and if it did not, the
status that was reported says so and the controller exits.
-/
def CountsRight (codec : Codec) (p : Parameters) (files : Files) (x : Execution)
    (w : RemoteWorker) (t : System) : Prop :=
  (w.proceeds codec p files = true → x.Succeeded) ∧
    (¬ x.Succeeded → ∃ response,
      codec.parseResponse w.incomingBuffer.getMessage = some response ∧
      response.executeResponse.status ≠ 0 ∧
      t.controller.pc = .exited (.executeFailed response.executeResponse.status))

/-- The response the controller reads is the one to its request. -/
theorem response_of_completes {s : System} {data : Bytes} {w w' : RemoteWorker} {l : Link}
    (hsound : codec.Sound) (h : InStep codec w (s.links w.addr))
    (hcomplete : CompletesExecute s data w w')
    (hfit : w.incomingBuffer.admits (.ok data) = true)
    (hl : (s.links w.addr).deliver data = some l) :
    ∃ response x, codec.parseResponse w'.incomingBuffer.getMessage = some response ∧
      response.requestType = .execute ∧ (s.links w.addr).execution = some x ∧
      response.executeResponse.status = x.status := by
  obtain ⟨b, hb, hdone, rfl⟩ := hcomplete.complete
  obtain ⟨-, -, response, hexpects, hmessage, hreports⟩ := h.complete hfit hl hb hdone
  rw [hcomplete.state] at hexpects
  have htype : response.requestType = .execute := (Option.some.inj hexpects).symm
  obtain ⟨x, hx, hstatus⟩ := hreports htype
  rw [(InStep.deliver_spec hl).2.2.2] at hx
  exact ⟨response, x, by rw [hmessage]; exact hsound.response response, htype, hx, hstatus⟩

/--
**When a frame counts as rendered only if its renderer succeeded.**  In every run,
whenever the execute response of a worker is complete, the controller judges the
execution rightly exactly when `wait4` did not tell of a child that was killed by a
signal, and when, where `wait4` told nothing because there was no child or because the
call failed, the word on the stack does not look like success or the child did succeed.
-/
theorem counts_right_iff_reported (codec : Codec) (hsound : codec.Sound) (p : Parameters)
    (sockFd : Int) (fuel : Nat) (hops : Nat → Nat) (s t : System)
    (hs : (machine codec p sockFd fuel hops).Reach (Fits codec p) s) (data : Bytes)
    (files : Files) (hstep : step codec p s (.controller (.recv (.ok data) files)) = some t)
    (w w' : RemoteWorker) (hcomplete : CompletesExecute s data w w') :
    ∃ x, (s.links w.addr).execution = some x ∧
      (CountsRight codec p files x w' t ↔ x.Reported) := by
  have hinv := reach_inv hsound hs
  obtain ⟨i, hpc, hw⟩ := hcomplete.entry
  have hrunning : s.controller.pc.stopped = false := by rw [hpc]; rfl
  have hinStep := hinv.inStep hrunning (List.mem_of_getElem? hw)
  -- the step is the call of `receive` for this worker
  rw [step] at hstep
  split at hstep
  case h_2 => exact absurd hstep (by simp)
  rename_i links c htransport hc
  rw [Option.some.injEq] at hstep
  simp only [transport, hpc, hw, Option.map_eq_some_iff] at htransport
  obtain ⟨l, hl, -⟩ := htransport
  obtain ⟨hfit, hc'⟩ := step_recv hpc hw hc
  obtain ⟨response, x, hparse, htype, hx, hstatus⟩ :=
    response_of_completes hsound hinStep hcomplete hfit hl
  obtain ⟨b, hb, hdone, rfl⟩ := hcomplete.complete
  have hproceeds : { w with incomingBuffer := b }.proceeds codec p files = true ↔
      response.executeResponse.status = 0 := proceeds_iff hcomplete.state hparse htype
  refine ⟨x, hx, ?_⟩
  rw [Execution.reported_iff, CountsRight, hproceeds, hstatus]
  refine ⟨And.left, fun h => ⟨h, fun hnot => ⟨response, hparse, ?_, ?_⟩⟩⟩
  · rw [hstatus]
    exact fun hzero => hnot (h hzero)
  · have hne : response.executeResponse.status ≠ 0 := by
      rw [hstatus]
      exact fun hzero => hnot (h hzero)
    have hreceive : w.receive codec p files (.ok data)
        = .exit (.executeFailed response.executeResponse.status) :=
      receive_execute_failed hcomplete.state hb hdone hparse htype hne
    rw [← hstep, hc', receiveFrom, hreceive]
    rfl

/-! One frame and one worker, and a renderer that ends in one way or another. -/

def renderer (fork : Ending) : WorkerEnv := { Pair.bareEnv with fork := fork }

/-- A whole turn, with the calls for the entry. -/
def turn (flags : PollFlags) (calls assigned : List Controller.Input) : List Input :=
  (reported flags ++ calls ++ rest assigned).map .controller

/-- The payload of the response to a request. -/
def answer (fork : Ending) (request : Request) : Bytes :=
  drpCodec.serializeResponse (Worker.handle (renderer fork) request)

/-- A request goes out and is dealt with, and the length of the response comes back. -/
def exchange (fork : Ending) (request : Request) : List Input :=
  turn { pollout := true }
      [.tau, .send (.ok (frame (drpCodec.serializeRequest request)).length), .tau] [] ++
    [.link 0 .receive, .link 0 (.handle (renderer fork)), .link 0 .send] ++
    turn { pollin := true }
      [.recv (.ok ((frame (answer fork request)).take 4)) noFiles, .tau, .tau] []

def beginning : System := ⟨Controller.start oneFrame 3 5, fun _ => Link.make 0⟩

/-- Up to the point where the payload of the execute response is about to be received. -/
def untilVerdict (fork : Ending) : List Input :=
  arrival.map .controller ++ exchange fork welcomeRequest ++
    turn { pollin := true } [.recv (.ok (answer fork welcomeRequest)) noFiles, .tau, .tau]
      [.assign noFiles] ++
    exchange fork (executeRequest oneFrame 1) ++
    (reported { pollin := true }).map .controller

def beforeVerdict (fork : Ending) : System :=
  ((machine drpCodec oneFrame 3 5 fun _ => 0).exec (Fits drpCodec oneFrame) beginning
    (untilVerdict fork)).getD beginning

/-- The payload of the execute response. -/
def verdict (fork : Ending) : Bytes := answer fork (executeRequest oneFrame 1)

def afterVerdict (fork : Ending) : System :=
  (step drpCodec oneFrame (beforeVerdict fork)
    (.controller (.recv (.ok (verdict fork)) noFiles))).getD (beforeVerdict fork)

/-- The worker whose response it is. -/
def judged (fork : Ending) : RemoteWorker :=
  (beforeVerdict fork).controller.remoteWorkers.headD (.make 0 4)

/-- The buffer when the response is in it. -/
def judgedBuffer (fork : Ending) : IncomingBuffer :=
  match (judged fork).incomingBuffer.receive (.ok (verdict fork)) with
  | .ok (.ok b) => b
  | _ => .make 4

theorem reach_beforeVerdict {fork : Ending}
    (h : ((machine drpCodec oneFrame 3 5 fun _ => 0).exec (Fits drpCodec oneFrame) beginning
      (untilVerdict fork)).isSome = true) :
    (machine drpCodec oneFrame 3 5 fun _ => 0).Reach (Fits drpCodec oneFrame)
      (beforeVerdict fork) :=
  Machine.Run.of_replay h

theorem step_verdict {fork : Ending}
    (h : (step drpCodec oneFrame (beforeVerdict fork)
      (.controller (.recv (.ok (verdict fork)) noFiles))).isSome = true) :
    step drpCodec oneFrame (beforeVerdict fork)
      (.controller (.recv (.ok (verdict fork)) noFiles)) = some (afterVerdict fork) := by
  obtain ⟨t, ht⟩ := Option.isSome_iff_exists.mp h
  rw [afterVerdict, ht, Option.getD_some]

/-- A renderer that succeeds is judged rightly. -/
theorem counts_right_iff_reported_exited :
    ∃ x, ((beforeVerdict .clean).links (judged .clean).addr).execution = some x ∧
      (CountsRight drpCodec oneFrame noFiles x
        { judged .clean with incomingBuffer := judgedBuffer .clean }
        (afterVerdict .clean) ↔ x.Reported) :=
  counts_right_iff_reported drpCodec drpCodec_sound oneFrame 3 5 (fun _ => 0)
    (beforeVerdict .clean) (afterVerdict .clean)
    (reach_beforeVerdict (by decide +kernel)) (verdict .clean) noFiles
    (step_verdict (by decide +kernel)) (judged .clean) _
    ⟨⟨0, by decide +kernel, by decide +kernel⟩, by decide +kernel,
      judgedBuffer .clean, by decide +kernel, by decide +kernel, rfl⟩

/-- A segmentation fault. -/
def crash : Ending := .waited (.signaled ⟨11, by decide⟩ false)

/-- A renderer that crashes has status 0, and its frame counts as rendered. -/
theorem crash_counts_as_rendered :
    ¬ ∀ (codec : Codec) (_ : codec.Sound) (p : Parameters) (sockFd : Int) (fuel : Nat)
      (hops : Nat → Nat) (s t : System),
      (machine codec p sockFd fuel hops).Reach (Fits codec p) s →
      ∀ (data : Bytes) (files : Files),
        step codec p s (.controller (.recv (.ok data) files)) = some t →
        ∀ w w' : RemoteWorker, CompletesExecute s data w w' →
          ∃ x, (s.links w.addr).execution = some x ∧ CountsRight codec p files x w' t := by
  intro h
  obtain ⟨x, hx, hright⟩ := h drpCodec drpCodec_sound oneFrame 3 5 (fun _ => 0)
    (beforeVerdict crash) (afterVerdict crash) (reach_beforeVerdict (by decide +kernel))
    (verdict crash) noFiles (step_verdict (by decide +kernel)) (judged crash) _
    ⟨⟨0, by decide +kernel, by decide +kernel⟩, by decide +kernel,
      judgedBuffer crash, by decide +kernel, by decide +kernel, rfl⟩
  have hcrash : ((beforeVerdict crash).links (judged crash).addr).execution
      = some (.ran crash) := by
    decide +kernel
  rw [hx, Option.some.injEq] at hcrash
  have hsucceeded := hright.1 (by decide +kernel)
  rw [hcrash, Execution.Succeeded] at hsucceeded
  obtain ⟨ending, hending, hchild⟩ := hsucceeded
  rw [← Execution.ran.inj hending] at hchild
  exact absurd hchild (by decide)

end System

end Distray
