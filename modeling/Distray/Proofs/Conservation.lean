/-
Frames are conserved.

The controller is a pool of jobs: the deque is the queue, and each worker is a slot
that holds its frame unless that is -1, and is busy unless it is idle.  Every step of
the controller is a few steps of the pool, so what was proved about pools holds of
the controller: no frame is in two places, and none is forgotten.

A worker that is idle again still holds the frame it has finished, and `kill_worker`
looks at nothing else.  So the promise that a finished frame is not rendered again
only holds of runs in which no such worker is removed.
-/
import Distray.Lib.Pool
import Distray.Proofs.Workers
import Distray.DrpCodec

namespace Distray

/-- A worker as a slot of the pool. -/
def RemoteWorker.slot (w : RemoteWorker) : Slot Int :=
  ⟨if w.frame = -1 then none else some w.frame, !w.isIdle⟩

namespace Controller

open RemoteWorker

variable {codec : Codec} {p : Parameters}

/-- The controller as a pool. -/
def pool (s : Controller) : Pool Int :=
  ⟨s.frames, s.remoteWorkers.map RemoteWorker.slot, s.finished⟩

/-! ### Every step is steps of the pool

A slot is made of a worker by looking at its frame and at whether it is idle.  Seen so, most
steps change nothing, and the ones that do are those of the pool: somebody joins, is lost,
is done, or is given the job at the front.
-/

section Simulation

variable {may : Slot Int → Prop}

theorem slot_eq_of_same {w w' : RemoteWorker} (hframe : w'.frame = w.frame)
    (hidle : w'.isIdle = w.isIdle) : w'.slot = w.slot := by
  rw [slot, slot, hframe, hidle]

/-- Some steps of the pool lead from one state of the controller to another. -/
def PoolRun (may : Slot Int → Prop) (s t : Controller) : Prop :=
  Relation.ReflTransGen (Pool.Step may) s.pool t.pool

theorem PoolRun.refl (s : Controller) : PoolRun may s s := Relation.ReflTransGen.refl

theorem pool_join {s : Controller} {w : RemoteWorker} (hnew : Newcomer codec s.nextAddr w) :
    Pool.Step may s.pool (s.join w).pool := by
  obtain ⟨-, -, hframe⟩ := hnew.spec
  have hslot : w.slot = ⟨none, !w.isIdle⟩ := by simp [slot, hframe]
  simp only [pool, join, List.map_append, List.map_cons, List.map_nil, hslot]
  exact .join _ _ _ _

theorem pool_kill {s : Controller} {i index : Nat} {next : Pc}
    (hmay : ∀ w, s.remoteWorkers[index]? = some w → may w.slot) :
    PoolRun may s (s.killWorker i index next) := by
  unfold killWorker
  split
  · exact .refl s
  · rename_i w hw
    refine Relation.ReflTransGen.single ?_
    have hqueue : (if w.frame = -1 then s.frames else w.frame :: s.frames)
        = w.slot.held.toList ++ s.frames := by
      simp only [slot]
      split <;> rfl
    obtain ⟨before, after, hws, rfl⟩ := Parts.exists_parts hw
    simp only [pool, hws, Parts.eraseIdx_parts, List.map_append, List.map_cons, hqueue]
    exact .drop _ _ _ _ _ (hmay w hw)

/-- A response moves a worker on: it may become available, or finish its frame. -/
theorem pool_receive {s : Controller} (hs : Inv p s) {i : Nat} {w w' : RemoteWorker}
    {r : Except Errno Bytes} {files : Files} (hw : s.remoteWorkers[i]? = some w)
    (hok : w.receive codec p files r = .ok (.ok w')) (pc : Pc) :
    PoolRun may s { s with
      remoteWorkers := s.remoteWorkers.set i w'
      finished := if !w.isIdle && w'.hasFinished p then w'.frame :: s.finished else s.finished
      pc := pc } := by
  obtain ⟨-, -, hframe, hidle⟩ := receive_same hok
  obtain ⟨before, after, hws, rfl⟩ := Parts.exists_parts hw
  simp only [PoolRun, pool, hws, Parts.set_parts, List.map_append, List.map_cons]
  cases hbefore : w.isIdle with
  | true =>
      -- an idle worker only takes bytes of a message it has not asked for
      rw [slot_eq_of_same hframe ((hidle hbefore).trans hbefore.symm)]
      exact .refl
  | false =>
      simp only [Bool.not_false, Bool.true_and]
      cases hafter : w'.isIdle with
      | false =>
          have hnot : w'.hasFinished p = false := by simp [hasFinished, hafter]
          rw [slot_eq_of_same hframe (hafter.trans hbefore.symm), hnot]
          exact .refl
      | true =>
          have hphased := receive_phased (hs.phased w (List.mem_of_getElem? hw)) hok
          have hstate : w'.state = .idle := by simpa [isIdle] using hafter
          simp only [Phased, hstate] at hphased
          rcases hphased with ⟨hnone, hstarted⟩ | ⟨hnonneg, hfinished⟩
          · -- the last of the files that go in before any frame
            have hnot : w'.hasFinished p = false := by simp [hasFinished, hstarted]
            have hold : w.slot = ⟨none, true⟩ := by simp [slot, ← hframe, hnone, hbefore]
            have hnew : w'.slot = ⟨none, false⟩ := by simp [slot, hnone, hafter]
            rw [hold, hnew, hnot]
            exact .single (.settle _ _ _ _)
          · have hne : w'.frame ≠ -1 := by omega
            have hold : w.slot = ⟨some w'.frame, true⟩ := by simp [slot, ← hframe, hne, hbefore]
            have hnew : w'.slot = ⟨some w'.frame, false⟩ := by simp [slot, hne, hafter]
            rw [hold, hnew, hfinished]
            exact .single (.finish _ _ _ _ _)

theorem getIdleWorker_isIdle {ws : List RemoteWorker} {index : Nat} {w : RemoteWorker}
    (hidle : getIdleWorker ws = some index) (hw : ws[index]? = some w) : w.isIdle = true := by
  obtain ⟨hlt, h, -⟩ := List.findIdx?_eq_some_iff_getElem.mp hidle
  obtain ⟨-, rfl⟩ := List.getElem?_eq_some_iff.mp hw
  exact h

/-- **Each step of the controller is a few steps of the pool.** -/
theorem pool_move (may : Slot Int → Prop) {s t : Controller} {input : Input} (hs : Inv p s)
    (hmove : Move codec p s input t)
    (hmay : ∀ w, s.victim input = some w → may w.slot) : PoolRun may s t := by
  cases hmove with
  | connect =>
      exact connectProxies_of (R := PoolRun may s) (fun _ _ _ h => h)
        (fun _ _ h hnew => h.tail (pool_join hnew)) _ _ _ s (.refl s)
  | accept =>
      exact acceptWorker_of (R := PoolRun may s) (fun _ _ _ h => h)
        (fun _ _ h hnew => h.tail (pool_join hnew)) _ _ (.refl s)
  | @receive r files i w hpc hin hw hfit =>
      refine receiveFrom_of (R := PoolRun may s) (fun _ _ => .refl s)
        (fun w' hok => pool_receive hs hw hok _) fun hreset => pool_kill ?_
      intro w' hw'
      rw [hw, Option.some.injEq] at hw'
      subst hw'
      exact hmay w (by simp [victim, hpc, hin, hw, hreset])
  | @send r i w hpc hout hw hfit =>
      refine sendTo_of (R := PoolRun may s) (fun _ _ => .refl s) ?_
      intro w' out hok
      have hslot : w'.slot = w.slot := by
        obtain ⟨b, -, rfl⟩ := send_eq_ok hok
        rfl
      simp only [PoolRun, pool]
      rw [Parts.map_set_of_eq hw hslot]
  | @kill i hpc hfailed =>
      refine pool_kill fun w hw => hmay w ?_
      simp [victim, hpc, hfailed, hw]
  | @assign files frame rest index w hpc hframes hidle hw =>
      refine after_of (R := PoolRun may s) (fun _ _ => .refl s)
        fun w' hok => Relation.ReflTransGen.single ?_
      have hnonneg : 0 ≤ frame := hs.frames_nonneg frame (by simp [hframes])
      obtain ⟨-, -, hframe, hbusy⟩ := runFrame_same hok
      have hold : w.slot = ⟨w.slot.held, false⟩ := by
        simp [slot, getIdleWorker_isIdle hidle hw]
      have hnew : w'.slot = ⟨some frame, true⟩ := by
        have hne : frame ≠ -1 := by omega
        simp [slot, hframe, hbusy, hne]
      obtain ⟨before, after, hws, rfl⟩ := Parts.exists_parts hw
      simp only [pool, hframes, hws, Parts.set_parts, List.map_append, List.map_cons]
      rw [hold, hnew]
      exact .assign _ _ _ _ _ _
  | _ => exact .refl s

end Simulation

/-! ### No frame is lost, and none is held twice -/

/-- The frames in the workers' hands. -/
def heldFrames (s : Controller) : List Int :=
  (s.remoteWorkers.map RemoteWorker.frame).filter (· ≠ -1)

theorem held_pool (s : Controller) : Pool.held s.pool.slots = s.heldFrames := by
  simp only [pool, heldFrames, Pool.held, List.filterMap_map]
  induction s.remoteWorkers with
  | nil => rfl
  | cons w rest ih =>
      by_cases h : w.frame = -1
      · simp [slot, h, ih]
      · simp [slot, h, ih]

theorem pool_start {sockFd : Int} {fuel : Nat} {jobs : List Int}
    (hget : p.frames.getAll fuel = .ok jobs) : (start p sockFd fuel).pool = ⟨jobs, [], []⟩ := by
  unfold start
  rw [hget]
  rfl

/-- **The controller simulates the pool.** -/
theorem reach_simulates {ok : Controller → Input → Prop} (may : Slot Int → Prop) {sockFd : Int}
    {fuel : Nat} {jobs : List Int} {s : Controller} (hget : p.frames.getAll fuel = .ok jobs)
    (hnonneg : ∀ f ∈ jobs, 0 ≤ f)
    (hmay : ∀ s input, ok s input → ∀ w, s.victim input = some w → may w.slot)
    (h : (machine codec p sockFd fuel).Reach ok s) :
    Inv p s ∧ Relation.ReflTransGen (Pool.Step may) ⟨jobs, [], []⟩ s.pool := by
  have hinit : Inv p (machine codec p sockFd fuel).init := Inv.start hget hnonneg
  have hkeep : ∀ s input t, Inv p s → ok s input →
      (machine codec p sockFd fuel).step s input = some t → Inv p t :=
    fun _ _ _ hs _ hstep => hs.move (move_of_step hstep)
  have hrun := Machine.Run.simulates pool hkeep
    (fun _ _ _ hs hok hstep => pool_move may hs (move_of_step hstep) (hmay _ _ hok)) h hinit
  rw [show (machine codec p sockFd fuel).init.pool = ⟨jobs, [], []⟩ from pool_start hget] at hrun
  exact ⟨Machine.Run.invariant hkeep h hinit, hrun⟩

theorem reach_pool {sockFd : Int} {fuel : Nat} {jobs : List Int} {s : Controller}
    (hget : p.frames.getAll fuel = .ok jobs) (hnodup : jobs.Nodup) (hnonneg : ∀ f ∈ jobs, 0 ≤ f)
    (h : (machine codec p sockFd fuel).Reach Machine.Any s) :
    Inv p s ∧ Pool.Safe jobs s.pool := by
  obtain ⟨hinv, hrun⟩ :=
    reach_simulates (fun _ => True) hget hnonneg (fun _ _ _ _ _ => trivial) h
  exact ⟨hinv, (Pool.Safe.start hnodup).run hrun⟩

/-- A frame is in the hands of exactly one worker that is not idle. -/
def HeldOnce (s : Controller) (f : Int) : Prop :=
  ∃ (i : Nat) (w : RemoteWorker), s.remoteWorkers[i]? = some w ∧ w.frame = f ∧
    w.isIdle = false ∧ ∀ (j : Nat) (w' : RemoteWorker), s.remoteWorkers[j]? = some w' →
      w'.frame = f → w'.isIdle = false → j = i

theorem heldOnce_of_working {jobs : List Int} {s : Controller} (hs : Pool.Safe jobs s.pool)
    {f : Int} (h : Pool.Working s.pool.slots f) : s.HeldOnce f := by
  obtain ⟨w, hmem, hslot⟩ := List.mem_map.mp h
  obtain ⟨i, hw⟩ := List.getElem?_of_mem hmem
  simp only [slot, Slot.mk.injEq, Bool.not_eq_eq_eq_not, Bool.not_true] at hslot
  obtain ⟨hheld, hbusy⟩ := hslot
  have hne : w.frame ≠ -1 := by
    intro heq
    simp [heq] at hheld
  simp only [if_neg hne, Option.some.injEq] at hheld
  refine ⟨i, w, hw, hheld, hbusy, ?_⟩
  intro j w' hw' hframe hbusy'
  refine hs.unique (a := w'.slot) (b := w.slot) (c := f) ?_ ?_ ?_ ?_
  · simp [pool, hw']
  · simp [pool, hw]
  · simp [slot, hframe, ← hheld, hne]
  · rw [hheld] at hne
    simp [slot, hheld, hne]

/-- The loop is only left with 0 when nothing waits and nobody works. -/
theorem idle_of_quit {s t : Controller} {input : Input} (hmove : Move codec p s input t)
    (hret : t.pc = .returned 0) :
    t.frames = [] ∧ anyWorkerWorking t.remoteWorkers = false := by
  have hgoing : (Pc.returned 0).stopped = false := rfl
  have hstopped : ∀ pc : Pc, pc.stopped = true → pc ≠ .returned 0 :=
    fun _ => Pc.ne_of_stopped hgoing
  have hnext : ∀ i, nextEntry i ≠ .returned 0 := fun i => by cases i <;> simp [nextEntry]
  -- every other step ends somewhere else
  suffices h : (s.frames = [] ∧ anyWorkerWorking s.remoteWorkers = false ∧
      t = { s with pc := .returned 0 }) ∨ t.pc ≠ .returned 0 by
    rcases h with ⟨hframes, hidle, rfl⟩ | h
    · exact ⟨hframes, hidle⟩
    · exact absurd hret h
  cases hmove with
  | quit _ hframes hidle => exact Or.inl ⟨hframes, hidle, rfl⟩
  | connect hpc =>
      refine Or.inr (connectProxies_of (R := fun t => t.pc ≠ .returned 0) ?_ (fun _ _ h _ => h)
        _ _ _ s (by simp [hpc]))
      rintro s pc (hpc | rfl) -
      · exact hstopped pc hpc
      · simp
  | accept hpc =>
      refine Or.inr (acceptWorker_of (R := fun t => t.pc ≠ .returned 0) ?_ (fun _ _ h _ => h)
        _ _ (by simp [hpc]))
      rintro s pc (hpc | rfl) -
      · exact hstopped pc hpc
      · simp
  | receive =>
      exact Or.inr (receiveFrom_of (R := fun t => t.pc ≠ .returned 0) hstopped
        (fun _ _ => by simp) fun _ => pc_killWorker hgoing (by simp))
  | send =>
      exact Or.inr (sendTo_of (R := fun t => t.pc ≠ .returned 0) hstopped fun _ _ _ => by simp)
  | kill => exact Or.inr (pc_killWorker hgoing (hnext _))
  | assign hpc =>
      exact Or.inr (after_of (R := fun t => t.pc ≠ .returned 0) hstopped
        fun _ _ => by simp [hpc])
  | skipCheck => exact Or.inr (hnext _)
  | _ => exact Or.inr (by simp)

theorem idle_of_returned {sockFd : Int} {fuel : Nat} {s : Controller}
    (h : (machine codec p sockFd fuel).Reach Machine.Any s) (hret : s.pc = .returned 0) :
    s.frames = [] ∧ anyWorkerWorking s.remoteWorkers = false := by
  unfold Machine.Reach at h
  cases h with
  | refl =>
      refine absurd hret (start_of (fun s => s.pc ≠ .returned 0) ?_)
      intro s _ _ _ _ hpc
      rcases hpc with ⟨-, hpc⟩ | ⟨-, hpc⟩
      · simp [hpc]
      · rintro hret
        simp [hret, Pc.stopped] at hpc
  | step _ _ hstep => exact idle_of_quit (move_of_step hstep) hret

/--
**No frame is lost and none is held twice.**  In every state the controller can reach,
the frames that wait and those in the workers' hands are all different, and each frame
of the range is finished, or waits, or is in the hands of exactly one worker that is
not idle.  So when the controller returns 0, all of them are finished.
-/
theorem frames_conserved (codec : Codec) (p : Parameters) (sockFd : Int) (fuel : Nat)
    (jobs : List Int) (hget : p.frames.getAll fuel = .ok jobs) (hnodup : jobs.Nodup)
    (hnonneg : ∀ f ∈ jobs, 0 ≤ f) (s : Controller)
    (h : (machine codec p sockFd fuel).Reach Machine.Any s) :
    (s.frames ++ s.heldFrames).Nodup ∧
      (∀ f ∈ jobs, f ∈ s.finished ∨ f ∈ s.frames ∨ s.HeldOnce f) ∧
      (s.pc = .returned 0 → ∀ f ∈ jobs, f ∈ s.finished) := by
  have hsafe := (reach_pool hget hnodup hnonneg h).2
  refine ⟨?_, ?_, fun hret => hsafe.all_done (idle_of_returned h hret).1 ?_⟩
  · rw [← held_pool]
    exact hsafe.nodup
  · intro f hf
    exact (hsafe.cover f hf).imp_right (Or.imp_right (heldOnce_of_working hsafe))
  · intro slot hslot
    obtain ⟨w, hw, rfl⟩ := List.mem_map.mp hslot
    have hidle := (idle_of_returned h hret).2
    simp only [anyWorkerWorking, List.any_eq_false] at hidle
    simpa [slot] using hidle w hw

/-! One frame and one worker: what the theorems say about a run of that. -/

def oneFrame : Parameters := { frames := ⟨1, 1, 1⟩, executable := bytes "render" }

def noFiles : Files := ⟨fun _ => none, fun _ => none⟩

/-- The first turn of the loop, in which a worker connects. -/
def arrival : List Input :=
  [.connect (fun _ => -1) noFiles, .poll 1 [{ pollin := true }], .accept 4 noFiles, .tau, .tau,
    .tau]

/-- The start of a turn in which the worker's entry, and no other, reports something. -/
def reported (flags : PollFlags) : List Input :=
  [.connect (fun _ => -1) noFiles, .poll 1 [{}, flags]]

/-- The end of such a turn, with the frame to hand out if there is one. -/
def rest (assigned : List Input) : List Input := [.tau, .tau, .tau] ++ assigned ++ [.tau]

/-- The worker takes a request of so many bytes. -/
def requested (size : Nat) : List Input :=
  reported { pollout := true } ++ [.tau, .send (.ok size), .tau] ++ rest []

/-- The length of its response arrives. -/
def answering (r : Response) : List Input :=
  reported { pollin := true } ++
    [.recv (.ok ((frame (drpCodec.serializeResponse r)).take 4)) noFiles, .tau, .tau] ++ rest []

/-- The rest of it arrives. -/
def answered (flags : PollFlags) (r : Response) : List Input :=
  reported flags ++ [.recv (.ok (drpCodec.serializeResponse r)) noFiles]

def welcomed : Response := { requestType? := some .welcome }

def executed : Response :=
  { requestType? := some .execute, executeResponse? := some { status? := some 0 } }

/-- Up to the end of the execute response, which arrives in a turn that reports `flags`. -/
def rendering (flags : PollFlags) : List Input :=
  arrival ++ requested 6 ++ answering welcomed ++ answered { pollin := true } welcomed ++
    [.tau, .tau] ++ rest [.assign noFiles] ++ requested 16 ++ answering executed ++
    answered flags executed

/-- What these inputs lead to. -/
def replay (ok : Controller → Input → Prop) [∀ s input, Decidable (ok s input)]
    (inputs : List Input) (s : Controller) : Controller :=
  ((machine drpCodec oneFrame 3 5).exec ok s inputs).getD s

theorem run_replay (ok : Controller → Input → Prop) [∀ s input, Decidable (ok s input)]
    {inputs : List Input} {s : Controller}
    (h : ((machine drpCodec oneFrame 3 5).exec ok s inputs).isSome = true) :
    (machine drpCodec oneFrame 3 5).Run ok s (replay ok inputs s) :=
  Machine.Run.of_replay h

/-- The renderer was successful, and the worker is idle again. -/
def rendered : Controller := replay Machine.Any (rendering { pollin := true }) (start oneFrame 3 5)

theorem frames_conserved_rendered :
    (rendered.frames ++ rendered.heldFrames).Nodup ∧
      (∀ f ∈ [1], f ∈ rendered.finished ∨ f ∈ rendered.frames ∨ rendered.HeldOnce f) ∧
      (rendered.pc = .returned 0 → ∀ f ∈ [1], f ∈ rendered.finished) :=
  frames_conserved drpCodec oneFrame 3 5 [1] (by decide) (by decide) (by decide)
    rendered (run_replay _ (by decide +kernel))

/-! ### What is finished stays finished

The pool asks that nobody is lost who has a done job in hands and is not busy.  In the
controller that is a worker that is idle and whose frame is not -1; the condition is on the
steps of a run, because whether such a worker is there depends on the run.
-/

/-- The step removes no idle worker with a frame in its hands. -/
def sparesFinished (s : Controller) (input : Input) : Bool :=
  match s.victim input with
  | some w => !w.isIdle || w.frame = -1
  | none => true

abbrev SparesFinished (s : Controller) (input : Input) : Prop := s.sparesFinished input = true

theorem careful_of_sparesFinished {s : Controller} {input : Input}
    (h : s.SparesFinished input) :
    ∀ w, s.victim input = some w → Pool.Careful w.slot := by
  intro w hw
  simp only [SparesFinished, sparesFinished, hw, Bool.or_eq_true, decide_eq_true_eq] at h
  rcases h with h | h
  · exact Or.inl h
  · exact Or.inr (by simp [slot, h])

theorem reach_fresh {sockFd : Int} {fuel : Nat} {jobs : List Int} {s : Controller}
    (hget : p.frames.getAll fuel = .ok jobs) (hnodup : jobs.Nodup) (hnonneg : ∀ f ∈ jobs, 0 ≤ f)
    (h : (machine codec p sockFd fuel).Reach SparesFinished s) :
    Inv p s ∧ Pool.Fresh jobs s.pool := by
  obtain ⟨hinv, hrun⟩ := reach_simulates Pool.Careful hget hnonneg
    (fun _ _ hok => careful_of_sparesFinished hok) h
  exact ⟨hinv, (Pool.Fresh.start hnodup).run hrun⟩

/-- The record of the past is only added to, and a frame is handed out from the front. -/
structure Later (s t : Controller) : Prop where
  finished : ∀ f ∈ s.finished, f ∈ t.finished
  handed : t.handed = s.handed ∨ ∃ f ∈ s.frames, t.handed = f :: s.handed

theorem later_of_move {s t : Controller} {input : Input} (hmove : Move codec p s input t) :
    Later s t := by
  have hsame : ∀ {t : Controller}, t.finished = s.finished → t.handed = s.handed → Later s t :=
    fun hfin hhand => ⟨fun f hf => hfin ▸ hf, Or.inl hhand⟩
  have hkill : ∀ i index next, Later s (s.killWorker i index next) := by
    intro i index next
    unfold killWorker
    split <;> exact hsame rfl rfl
  cases hmove with
  | connect =>
      exact connectProxies_of (R := Later s) (fun _ _ _ h => ⟨h.finished, h.handed⟩)
        (fun _ _ h _ => ⟨h.finished, h.handed⟩) _ _ _ s (hsame rfl rfl)
  | accept =>
      exact acceptWorker_of (R := Later s) (fun _ _ _ h => ⟨h.finished, h.handed⟩)
        (fun _ _ h _ => ⟨h.finished, h.handed⟩) _ _ (hsame rfl rfl)
  | receive =>
      refine receiveFrom_of (R := Later s) (fun _ _ => hsame rfl rfl) ?_
        fun _ => hkill _ _ _
      intro w' _
      refine ⟨?_, Or.inl rfl⟩
      intro f hf
      simp only
      split
      · exact List.mem_cons_of_mem _ hf
      · exact hf
  | send => exact sendTo_of (R := Later s) (fun _ _ => hsame rfl rfl) fun _ _ _ => hsame rfl rfl
  | kill => exact hkill _ _ _
  | assign _ hframes =>
      exact after_of (R := Later s) (fun _ _ => hsame rfl rfl)
        fun w' _ => ⟨fun _ hf => hf, Or.inr ⟨_, by simp [hframes], rfl⟩⟩
  | _ => exact hsame rfl rfl

/--
**When a finished frame is never rendered again.**  As long as no step removes an idle
worker that still has a frame in its hands, a frame that has been finished does not
enter the deque and is not handed to `run_frame` any more.
-/
theorem finished_not_rescheduled (codec : Codec) (p : Parameters) (sockFd : Int) (fuel : Nat)
    (jobs : List Int) (hget : p.frames.getAll fuel = .ok jobs) (hnodup : jobs.Nodup)
    (hnonneg : ∀ f ∈ jobs, 0 ≤ f) (s t : Controller)
    (hs : (machine codec p sockFd fuel).Reach SparesFinished s)
    (ht : (machine codec p sockFd fuel).Run SparesFinished s t) (f : Int)
    (hf : f ∈ s.finished) :
    f ∉ t.frames ∧ ∃ later, t.handed = later ++ s.handed ∧ f ∉ later := by
  have hfresh : ∀ {s : Controller}, (machine codec p sockFd fuel).Reach SparesFinished s →
      Inv p s ∧ Pool.Fresh jobs s.pool := reach_fresh hget hnodup hnonneg
  suffices h : f ∈ t.finished ∧ ∃ later, t.handed = later ++ s.handed ∧ f ∉ later from
    ⟨(hfresh (hs.trans ht)).2.queue_fresh f h.1, h.2⟩
  induction ht with
  | refl => exact ⟨hf, [], rfl, by simp⟩
  | @step u v input hrun hok hstep ih =>
      obtain ⟨hfin, later, hlater, hnot⟩ := ih
      obtain ⟨hgrow, hhand⟩ := later_of_move (move_of_step hstep)
      refine ⟨hgrow f hfin, ?_⟩
      rcases hhand with hhand | ⟨g, hg, hhand⟩
      · exact ⟨later, hhand.trans hlater, hnot⟩
      · have hne : f ≠ g := by
          rintro rfl
          exact (hfresh (hs.trans hrun)).2.queue_fresh f hfin hg
        exact ⟨g :: later, by rw [hhand, hlater]; rfl, by simp [hne, hnot]⟩

/-- The same run, and the step after it. -/
def renderedSparing : Controller :=
  replay SparesFinished (rendering { pollin := true }) (start oneFrame 3 5)

theorem finished_not_rescheduled_rendered :
    1 ∉ (replay SparesFinished [.tau, .tau] renderedSparing).frames ∧
      ∃ later, (replay SparesFinished [.tau, .tau] renderedSparing).handed
        = later ++ renderedSparing.handed ∧ 1 ∉ later :=
  finished_not_rescheduled drpCodec oneFrame 3 5 [1] (by decide) (by decide) (by decide)
    renderedSparing (replay SparesFinished [.tau, .tau] renderedSparing)
    (run_replay _ (by decide +kernel)) (run_replay _ (by decide +kernel)) 1 (by decide +kernel)

/-- As before, but the connection ends along with the worker's last response. -/
def renderedAndGone : Controller :=
  replay Machine.Any (rendering { pollin := true, pollhup := true }) (start oneFrame 3 5)

/--
The worker's last response and the end of its connection arrive together.  The frame
is finished, and then the error branch removes the worker and puts it back.
-/
theorem finished_rescheduled :
    ¬ ∀ (codec : Codec) (p : Parameters) (sockFd : Int) (fuel : Nat) (jobs : List Int),
      p.frames.getAll fuel = .ok jobs → jobs.Nodup → (∀ f ∈ jobs, 0 ≤ f) →
      ∀ s t : Controller, (machine codec p sockFd fuel).Reach Machine.Any s →
        (machine codec p sockFd fuel).Run Machine.Any s t → ∀ f ∈ s.finished,
        f ∉ t.frames ∧ ∃ later, t.handed = later ++ s.handed ∧ f ∉ later := by
  intro h
  have hnot := h drpCodec oneFrame 3 5 [1] (by decide) (by decide) (by decide)
    renderedAndGone (replay Machine.Any [.tau, .tau] renderedAndGone)
    (run_replay _ (by decide +kernel)) (run_replay _ (by decide +kernel)) 1 (by decide +kernel)
  exact absurd hnot.1 (by decide +kernel)

end Controller

end Distray
