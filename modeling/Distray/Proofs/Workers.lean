/-
What holds of every worker the controller has.

`Moves` says what a step does to the list of workers; most of what is known about the
controller is about one worker at a time, and then the list is beside the point.  The
rule here takes what a property of one worker needs — that newcomers have it, and that
the calls of the controller keep it — and gives it for every worker in every reachable
state.  `Inv` is its first use: where the frames of the range are not negative, every
worker's state says the truth about its past.  The second is that workers at rest are
idle or wait for a response, which is what the test at the head of the loop has to be
compared with.
-/
import Distray.Proofs.Moves

namespace Distray

/-- A state in which `dispatch` can leave a worker. -/
def State.resting : State → Bool
  | .receiveWelcomeResponse | .receiveCopyInNonFrameFile | .idle | .receiveCopyInFrameFile
  | .receiveExecuteResponse | .receiveCopyOutFrameFile => true
  | _ => false

/-- The states whose cases are written. -/
def State.implemented : State → Bool
  | .sendCopyOutNonFrameFile | .receiveCopyOutNonFrameFile | .done => false
  | _ => true

theorem State.resting_iff (s : State) :
    s.resting = true ↔ s.implemented = true ∧ s.immediate = false := by
  cases s <;> simp [resting, implemented, immediate]

namespace RemoteWorker

variable {codec : Codec} {p : Parameters} {files : Files}

theorem Turn.implemented {w w' : RemoteWorker} (h : Turn codec p files w w')
    (hw : w.state.implemented = true) : w'.state.implemented = true := by
  cases h with
  | inSent hpass => cases hpass <;> rfl
  | inSkipped => exact hw
  | inFinished hpass => cases hpass <;> rfl
  | inReceived hpass => cases hpass <;> rfl
  | outSkipped => exact hw
  | unimplemented => exact hw
  | _ => rfl

theorem dispatch_resting {w w' : RemoteWorker} (h : w.dispatch codec p files = .ok w')
    (hw : w.state.implemented = true) : w'.state.resting = true := by
  rw [State.resting_iff]
  refine ⟨?_, dispatch_waits h⟩
  exact dispatch_invariant (P := fun w => w.state.implemented = true)
    (fun _ _ hw hturn => hturn.implemented hw) h hw

/-- A worker at rest that is not idle expects a response. -/
theorem expects_of_resting {w : RemoteWorker} (h : w.state.resting = true) :
    w.isIdle = true ∨ ∃ t, w.state.expects = some t := by
  cases hs : w.state <;> simp [hs, State.resting, isIdle, State.expects] at h ⊢

end RemoteWorker

namespace Controller

open RemoteWorker

variable {codec : Codec} {p : Parameters}

/-! ### The rule

A worker comes into the list as a newcomer, and after that only three calls are made of it.
What survives those survives in the list, whatever is removed from it or added; the property
of frames is there because `run_frame` and `kill_worker` carry them in and out.
-/

/--
A property of workers, and one of frames, that the controller's calls keep: newcomers
have it, `receive`, `send` and `run_frame` do not lose it, and what `kill_worker` puts
back is a frame with the property of frames.
-/
structure Upheld (codec : Codec) (p : Parameters) (Q : Int → Prop) (P : RemoteWorker → Prop) :
    Prop where
  newcomer : ∀ {addr : Nat} {w : RemoteWorker}, Newcomer codec addr w → P w
  incoming : ∀ {w : RemoteWorker} (b : IncomingBuffer), P w → P { w with incomingBuffer := b }
  outgoing : ∀ {w : RemoteWorker} (b : OutgoingBuffer), P w → P { w with outgoingBuffer := b }
  dispatch : ∀ {w w' : RemoteWorker} {files : Files}, P w →
    w.dispatch codec p files = .ok w' → P w'
  runFrame : ∀ {w w' : RemoteWorker} {files : Files} {frame : Int}, P w → Q frame →
    w.runFrame codec p files frame = .ok w' → P w'
  frame : ∀ {w : RemoteWorker}, P w → w.frame ≠ -1 → Q w.frame

/-- The property holds of all workers, and the other of all frames that wait. -/
structure All (Q : Int → Prop) (P : RemoteWorker → Prop) (s : Controller) : Prop where
  frames : ∀ f ∈ s.frames, Q f
  workers : ∀ w ∈ s.remoteWorkers, P w

variable {Q : Int → Prop} {P : RemoteWorker → Prop}

theorem All.pc {s : Controller} (h : All Q P s) (pc : Pc) : All Q P { s with pc := pc } :=
  ⟨h.frames, h.workers⟩

theorem All.join {s : Controller} (h : All Q P s) {w : RemoteWorker} (hw : P w) :
    All Q P (s.join w) := by
  refine ⟨h.frames, ?_⟩
  intro w' hw'
  rcases List.mem_append.mp hw' with hw' | hw'
  · exact h.workers w' hw'
  · rw [List.mem_singleton] at hw'
    exact hw' ▸ hw

theorem All.set {s : Controller} (h : All Q P s) {i : Nat} {w' : RemoteWorker} (hw' : P w')
    {frames : List Int} (hframes : ∀ f ∈ frames, Q f) (finished handed : List Int) (pc : Pc) :
    All Q P { s with
      frames := frames, remoteWorkers := s.remoteWorkers.set i w', finished := finished
      handed := handed, pc := pc } := by
  refine ⟨hframes, ?_⟩
  intro w₁ hw₁
  rcases List.mem_or_eq_of_mem_set hw₁ with hw₁ | rfl
  · exact h.workers w₁ hw₁
  · exact hw'

theorem All.kill {s : Controller} (h : All Q P s) (hup : Upheld codec p Q P) (i index : Nat)
    (next : Pc) : All Q P (s.killWorker i index next) := by
  unfold killWorker
  split
  · exact h.pc _
  · rename_i w hw
    refine ⟨?_, fun w' hw' => h.workers w' ((List.eraseIdx_sublist _ _).subset hw')⟩
    intro f hf
    simp only at hf
    split at hf
    · exact h.frames f hf
    · rename_i hne
      rcases List.mem_cons.mp hf with rfl | hf
      · exact hup.frame (h.workers w (List.mem_of_getElem? hw)) hne
      · exact h.frames f hf

theorem Upheld.receive (hup : Upheld codec p Q P) {w w' : RemoteWorker}
    {r : Except Errno Bytes} {files : Files} (hw : P w)
    (h : w.receive codec p files r = .ok (.ok w')) : P w' := by
  obtain ⟨b, -, ⟨-, rfl⟩ | ⟨-, hdispatch⟩⟩ := receive_eq_ok h
  · exact hup.incoming b hw
  · exact hup.dispatch (hup.incoming b hw) hdispatch

theorem All.move {s t : Controller} {input : Input} (h : All Q P s) (hup : Upheld codec p Q P)
    (hmove : Move codec p s input t) : All Q P t := by
  cases hmove with
  | connect =>
      exact connectProxies_of (fun s pc _ hs => hs.pc pc)
        (fun s w hs hnew => hs.join (hup.newcomer hnew)) _ _ _ s h
  | polled => exact ⟨h.frames, h.workers⟩
  | accept =>
      exact acceptWorker_of (fun s pc _ hs => hs.pc pc)
        (fun s w hs hnew => hs.join (hup.newcomer hnew)) _ _ h
  | @receive r files i w hpc hin hw hfit =>
      refine receiveFrom_of (fun pc _ => h.pc pc) ?_ fun _ => h.kill hup _ _ _
      intro w' hok
      exact h.set (hup.receive (h.workers w (List.mem_of_getElem? hw)) hok) h.frames _ _ _
  | @send r i w hpc hout hw hfit =>
      refine sendTo_of (fun pc _ => h.pc pc) ?_
      intro w' out hok
      obtain ⟨b, -, rfl⟩ := send_eq_ok hok
      exact h.set (hup.outgoing b (h.workers w (List.mem_of_getElem? hw))) h.frames _ _ _
  | kill => exact h.kill hup _ _ _
  | @assign files frame rest index w hpc hframes hidle hw =>
      refine after_of (fun pc _ => h.pc pc) ?_
      intro w' hok
      have hall := h.frames
      rw [hframes] at hall
      exact h.set (hup.runFrame (h.workers w (List.mem_of_getElem? hw)) (hall frame (by simp)) hok)
        (fun f hf => hall f (by simp [hf])) _ _ _
  | _ => exact h.pc _

theorem All.start {sockFd : Int} {fuel : Nat}
    (hjobs : ∀ jobs, p.frames.getAll fuel = .ok jobs → ∀ f ∈ jobs, Q f) :
    All Q P (start p sockFd fuel) := by
  refine start_of (All Q P) fun s hworkers _ _ _ hframes => ⟨?_, by simp [hworkers]⟩
  rcases hframes with ⟨hget, -⟩ | ⟨hnil, -⟩
  · exact hjobs s.frames hget
  · simp [hnil]

/-- **What the calls keep holds of every worker in every reachable state.** -/
theorem reach_all {ok : Controller → Input → Prop} {sockFd : Int} {fuel : Nat}
    {s : Controller} (hup : Upheld codec p Q P)
    (hjobs : ∀ jobs, p.frames.getAll fuel = .ok jobs → ∀ f ∈ jobs, Q f)
    (h : (machine codec p sockFd fuel).Reach ok s) : All Q P s :=
  Machine.Reach.invariant (All.start hjobs)
    (fun _ _ _ hs _ hstep => hs.move hup (move_of_step hstep)) h

/-! ### Where the frames can be rendered -/

structure Inv (p : Parameters) (s : Controller) : Prop where
  frames_nonneg : ∀ f ∈ s.frames, 0 ≤ f
  phased : ∀ w ∈ s.remoteWorkers, w.Phased p

theorem Inv.of_all {s : Controller} (h : All (0 ≤ ·) (Phased p) s) : Inv p s :=
  ⟨h.frames, h.workers⟩

theorem Inv.all {s : Controller} (h : Inv p s) : All (0 ≤ ·) (Phased p) s :=
  ⟨h.frames_nonneg, h.phased⟩

theorem frame_cases {w : RemoteWorker} (h : w.Phased p) : w.frame = -1 ∨ 0 ≤ w.frame := by
  unfold Phased at h
  split at h
  case h_5 => exact h.imp And.left And.left
  case h_10 => exact Or.inr h.1.1
  case h_11 => exact Or.inr h.1.1.1
  case h_12 | h_13 | h_14 => exact h.elim
  all_goals first | exact Or.inl h.1 | exact Or.inr h.1.1

theorem upheld_phased : Upheld codec p (0 ≤ ·) (Phased p) where
  newcomer hnew := hnew.phased
  incoming b hw := phased_incomingBuffer hw b
  outgoing b hw := phased_outgoingBuffer hw b
  dispatch hw h := dispatch_phased h hw
  runFrame _ hframe h := runFrame_phased hframe h
  frame hw hne := (frame_cases hw).resolve_left hne

theorem Inv.move {s t : Controller} {input : Input} (h : Inv p s)
    (hmove : Move codec p s input t) : Inv p t := .of_all (h.all.move upheld_phased hmove)

theorem Inv.start {sockFd : Int} {fuel : Nat} {jobs : List Int}
    (hget : p.frames.getAll fuel = .ok jobs) (hnonneg : ∀ f ∈ jobs, 0 ≤ f) :
    Inv p (start p sockFd fuel) := by
  refine .of_all (All.start ?_)
  intro jobs' hget'
  rw [hget, Outcome.ok.injEq] at hget'
  exact hget' ▸ hnonneg

/-! ### What `poll` returned -/

/-- Once `poll` has returned, its result is not -1; so no test of it succeeds later. -/
theorem result_of_move {s t : Controller} {input : Input} (h : s.result ≠ -1)
    (hmove : Move codec p s input t) : t.result ≠ -1 := by
  have hkill : ∀ i index next, (s.killWorker i index next).result ≠ -1 := by
    intro i index next
    unfold killWorker
    split <;> exact h
  cases hmove with
  | connect =>
      exact connectProxies_of (R := fun t => t.result ≠ -1) (fun _ _ _ h => h) (fun _ _ h _ => h)
        _ _ _ s h
  | polled _ hresult => exact hresult
  | accept =>
      exact acceptWorker_of (R := fun t => t.result ≠ -1) (fun _ _ _ h => h) (fun _ _ h _ => h)
        _ _ h
  | receive =>
      exact receiveFrom_of (R := fun t => t.result ≠ -1) (fun _ _ => h) (fun _ _ => h)
        fun _ => hkill _ _ _
  | send => exact sendTo_of (R := fun t => t.result ≠ -1) (fun _ _ => h) fun _ _ _ => h
  | kill => exact hkill _ _ _
  | assign => exact after_of (R := fun t => t.result ≠ -1) (fun _ _ => h) fun _ _ => h
  | _ => exact h

theorem result_start {sockFd : Int} {fuel : Nat} : (start p sockFd fuel).result ≠ -1 :=
  after_of (R := fun s => s.result ≠ -1) (fun _ _ => by simp) fun _ _ => by simp

theorem reach_result {ok : Controller → Input → Prop} {sockFd : Int} {fuel : Nat}
    {s : Controller} (h : (machine codec p sockFd fuel).Reach ok s) : s.result ≠ -1 := by
  exact Machine.Reach.invariant (P := fun s => s.result ≠ -1) result_start
    (fun _ _ _ hs _ hstep => result_of_move hs (move_of_step hstep)) h

/-! ### Workers at rest -/

theorem upheld_resting :
    Upheld codec p (fun _ => True) (fun w => w.state.resting = true) where
  newcomer := by
    rintro addr w ⟨fd, proxyIndex, rfl⟩
    rfl
  incoming _ hw := hw
  outgoing _ hw := hw
  dispatch hw h := dispatch_resting h ((State.resting_iff _).mp hw).1
  runFrame _ _ h := dispatch_resting (runFrame_eq_ok h).2 rfl
  frame _ _ := trivial

/-- Between two calls, a worker is idle or waits for a response. -/
theorem reach_resting {ok : Controller → Input → Prop} {sockFd : Int} {fuel : Nat}
    {s : Controller} (h : (machine codec p sockFd fuel).Reach ok s) :
    ∀ w ∈ s.remoteWorkers, w.state.resting = true :=
  (reach_all upheld_resting (fun _ _ _ _ => trivial) h).workers

end Controller

end Distray
