/-
When the controller stops.

The loop is to go on as long as there are frames to be done or workers working on
frames, but its test asks whether any worker is not idle, and a connection that is
still being welcomed is not.  Such a connection waits at every proxy, so a controller
that goes through one does not stop when its frames are finished.

Which workers keep the loop going is a question about one state, and so the result is for
every state at the head of the loop in which the work is done.
-/
import Distray.Proofs.Waiting

namespace Distray

/-- The states from `SEND_COPY_IN_FRAME_FILE` to `RECEIVE_COPY_OUT_FRAME_FILE`. -/
def State.onFrame : State → Bool
  | .sendCopyInFrameFile | .receiveCopyInFrameFile | .sendExecuteRequest
  | .receiveExecuteResponse | .sendCopyOutFrameFile | .receiveCopyOutFrameFile => true
  | _ => false

/-- The states of a connection that has not been given all the non-frame files. -/
def State.settingUp : State → Bool
  | .receiveWelcomeResponse | .receiveCopyInNonFrameFile => true
  | _ => false

/-- A worker at rest that is not idle is being set up or is on a frame. -/
theorem State.resting_cases {s : State} (h : s.resting = true) (hframe : s.onFrame = false) :
    s = .idle ∧ s.settingUp = false ∨ s ≠ .idle ∧ s.settingUp = true := by
  cases s <;> simp_all [resting, onFrame, settingUp]

namespace Controller

variable {codec : Codec} {p : Parameters}

/-- The condition of the outer loop. -/
def goesOn (s : Controller) : Bool := !s.frames.isEmpty || anyWorkerWorking s.remoteWorkers

/-- Nothing waits in the deque and no worker is on a frame. -/
structure AllDone (s : Controller) : Prop where
  frames : s.frames = []
  workers : ∀ w ∈ s.remoteWorkers, w.state.onFrame = false

/-- The loop is left, and `start_controller` returns 0. -/
structure Leaves (codec : Codec) (p : Parameters) (s : Controller) : Prop where
  condition : s.goesOn = false
  returns : step codec p s .tau = some { s with pc := .returned 0 }
  only : ∀ input t, step codec p s input = some t → t.pc = .returned 0

theorem leaves_iff {s : Controller} (hpc : s.pc = .loopHead) :
    Leaves codec p s ↔ s.goesOn = false := by
  constructor
  · intro h
    exact h.condition
  · intro hcond
    unfold goesOn at hcond
    refine ⟨hcond, by simp [step, hpc, hcond], ?_⟩
    intro input t h
    simp only [step, hpc, hcond, Bool.false_eq_true, if_false] at h
    cases input with
    | tau =>
        rw [Option.some.injEq] at h
        rw [← h]
    | _ => exact absurd h (by simp)

/--
**When the work is done, the controller stops if and only if no connection is being
set up.**  A connection that waits for its welcome response, at a proxy or not, or
that is still given the non-frame files, keeps the loop going.
-/
theorem leaves_iff_none_settingUp (codec : Codec) (p : Parameters) (sockFd : Int) (fuel : Nat)
    (s : Controller) (h : (machine codec p sockFd fuel).Reach Machine.Any s)
    (hpc : s.pc = .loopHead) (hdone : s.AllDone) :
    Leaves codec p s ↔ ∀ w ∈ s.remoteWorkers, w.state.settingUp = false := by
  have hrest := reach_resting h
  rw [leaves_iff hpc]
  simp only [goesOn, hdone.frames, List.isEmpty_nil, Bool.not_true, Bool.false_or,
    anyWorkerWorking, List.any_eq_false, RemoteWorker.isIdle]
  constructor
  · intro hidle w hw
    have hstate : w.state = .idle := by simpa using hidle w hw
    rcases State.resting_cases (hrest w hw) (hdone.workers w hw) with ⟨-, hset⟩ | ⟨hne, -⟩
    · exact hset
    · exact absurd hstate hne
  · intro hset w hw
    rcases State.resting_cases (hrest w hw) (hdone.workers w hw) with ⟨hstate, -⟩ | ⟨-, hnot⟩
    · simp [hstate]
    · rw [hset w hw] at hnot
      exact absurd hnot (by simp)

instance (s : Controller) : Decidable s.AllDone :=
  decidable_of_iff (s.frames = [] ∧ ∀ w ∈ s.remoteWorkers, w.state.onFrame = false)
    ⟨fun h => ⟨h.1, h.2⟩, fun h => ⟨h.frames, h.workers⟩⟩

/-- One frame and one worker, which has rendered it: the end of that turn. -/
def renderedHead : Controller := replay Machine.Any ([.tau, .tau] ++ rest []) rendered

theorem leaves_renderedHead : Leaves drpCodec oneFrame renderedHead :=
  (leaves_iff_none_settingUp drpCodec oneFrame 3 5 renderedHead
    ((run_replay _ (by decide +kernel)).trans (run_replay _ (by decide +kernel)))
    (by decide +kernel) (by decide +kernel)).mpr (by decide +kernel)

/-- The start of a turn, and the entry of the connection that waits at the proxy. -/
def besideWaiting (flags : PollFlags) : List Input :=
  [.connect (fun _ => 5) noFiles, .poll 1 [{}, flags, {}], .tau, .tau, .tau]

/-- It renders the frame, and another connection waits at the proxy. -/
def renderedThrough : Controller :=
  ((machine drpCodec throughProxy 3 5).exec Machine.Any (start throughProxy 3 5)
    (firstThrough ++ besideWaiting { pollout := true } ++ [.tau, .send (.ok 16), .tau] ++ rest [] ++
      besideWaiting { pollin := true } ++
      [.recv (.ok ((frame (drpCodec.serializeResponse executed)).take 4)) noFiles, .tau, .tau] ++
      rest [] ++ besideWaiting { pollin := true } ++
      [.recv (.ok (drpCodec.serializeResponse executed)) noFiles, .tau, .tau] ++ rest [])).getD
    (start throughProxy 3 5)

theorem reach_renderedThrough :
    (machine drpCodec throughProxy 3 5).Reach Machine.Any renderedThrough :=
  Machine.Run.of_replay (by decide +kernel)

/-- The only frame is finished, and the loop goes on. -/
theorem not_leaves_when_done :
    ¬ ∀ (codec : Codec) (p : Parameters) (sockFd : Int) (fuel : Nat) (s : Controller),
      (machine codec p sockFd fuel).Reach Machine.Any s → s.pc = .loopHead → s.AllDone →
      Leaves codec p s := by
  intro h
  have hleaves := h drpCodec throughProxy 3 5 renderedThrough reach_renderedThrough
    (by decide +kernel) (by decide +kernel)
  exact absurd hleaves.condition (by decide +kernel)

end Controller

end Distray
