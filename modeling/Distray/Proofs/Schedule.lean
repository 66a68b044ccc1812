/-
In which order frames are handed out, and that no worker is left waiting.

Of the deque of frames and the record of what was handed out, the controller's loop is a
queue from which frames are taken and to which those of lost workers come back.  So
frames are first handed out in the order of the range, and no more often than the number
of workers lost accounts for.  And as the loop that hands them out only ends when there
are no more frames or no idle workers, there are not both when the controller polls.

It is not said that a frame is rendered only once.  A worker can be lost when it has finished
its frame, and then the frame comes back like any other; but each time one is handed out
again, a worker has been lost.
-/
import Distray.Lib.Returns
import Distray.Proofs.Conservation

namespace Distray

namespace Controller

open RemoteWorker

variable {codec : Codec} {p : Parameters}

/-! ### The frames are a queue with returns -/

def returns (s : Controller) : Returns Int := ⟨s.frames, s.handed, s.killed.length⟩

/-- A worker has no frame, or one that was handed out. -/
def HoldsHanded (s : Controller) : Prop :=
  ∀ w ∈ s.remoteWorkers, w.frame = -1 ∨ w.frame ∈ s.handed

/-- What a step does to the queue, and that workers only hold what was taken from it. -/
def Returning (s t : Controller) : Prop :=
  HoldsHanded t ∧ Relation.ReflTransGen Returns.Step s.returns t.returns

theorem returning_kill {s : Controller} (h : HoldsHanded s) (i index : Nat) (next : Pc) :
    Returning s (s.killWorker i index next) := by
  unfold killWorker
  split
  · exact ⟨h, .refl⟩
  · rename_i w hw
    have hmem := List.mem_of_getElem? hw
    refine ⟨fun x hx => h x (List.mem_of_mem_eraseIdx hx), .single ?_⟩
    by_cases hframe : w.frame = -1
    · rw [if_pos hframe]
      exact .lose s.frames s.handed s.killed.length
    · rw [if_neg hframe]
      exact .giveBack w.frame s.frames s.handed s.killed.length ((h w hmem).resolve_left hframe)

theorem HoldsHanded.set {s : Controller} (h : HoldsHanded s) {i : Nat} {w w' : RemoteWorker}
    (hw : s.remoteWorkers[i]? = some w) (hframe : w'.frame = w.frame) :
    ∀ x ∈ s.remoteWorkers.set i w', x.frame = -1 ∨ x.frame ∈ s.handed := by
  intro x hx
  rcases List.mem_or_eq_of_mem_set hx with hx | rfl
  · exact h x hx
  · rw [hframe]
    exact h w (List.mem_of_getElem? hw)

/-- **Each step of the controller is at most one step of the queue.** -/
theorem returning_move {s t : Controller} {input : Input} (h : HoldsHanded s)
    (hmove : Move codec p s input t) : Returning s t := by
  have hjoin : ∀ (u : Controller) (w : RemoteWorker), Returning s u →
      Newcomer codec u.nextAddr w → Returning s (u.join w) := by
    intro u w hu hnew
    refine ⟨fun x hx => ?_, hu.2⟩
    rcases List.mem_append.mp hx with hx | hx
    · exact hu.1 x hx
    · rw [List.mem_singleton] at hx
      exact Or.inl (hx ▸ hnew.spec.2.2)
  have hsame : Returning s s := ⟨h, .refl⟩
  cases hmove with
  | connect =>
      exact connectProxies_of (R := Returning s) (fun _ _ _ hu => hu) hjoin _ _ _ s hsame
  | accept =>
      exact acceptWorker_of (R := Returning s) (fun _ _ _ hu => hu) hjoin _ _ hsame
  | @receive r files i w hpc hin hw hfit =>
      refine receiveFrom_of (R := Returning s) (fun _ _ => hsame) ?_
        (fun _ => returning_kill h _ _ _)
      intro w' hok
      exact ⟨h.set hw (receive_same hok).2.2.1, .refl⟩
  | @send r i w hpc hout hw hfit =>
      refine sendTo_of (R := Returning s) (fun _ _ => hsame) ?_
      intro w' out hok
      obtain ⟨b, -, rfl⟩ := send_eq_ok hok
      exact ⟨h.set hw rfl, .refl⟩
  | kill => exact returning_kill h _ _ _
  | @assign files frame rest index w hpc hframes hidle hw =>
      refine after_of (R := Returning s) (fun _ _ => hsame) ?_
      intro w' hok
      refine ⟨?_, .single ?_⟩
      · intro x hx
        rcases List.mem_or_eq_of_mem_set hx with hx | rfl
        · exact (h x hx).imp_right (List.mem_cons_of_mem _)
        · rw [(runFrame_same hok).2.2.1]
          exact Or.inr (List.mem_cons_self ..)
      · rw [returns, hframes]
        exact .take frame rest s.handed s.killed.length
  | _ => exact hsame

theorem reach_inOrder {ok : Controller → Input → Prop} {sockFd : Int} {fuel : Nat}
    {jobs : List Int} {s : Controller} (hget : p.frames.getAll fuel = .ok jobs)
    (h : (machine codec p sockFd fuel).Reach ok s) : Returns.InOrder jobs s.returns := by
  have hstart : start p sockFd fuel = { start p sockFd fuel with
      frames := jobs, remoteWorkers := [], handed := [], killed := [] } := by
    rw [start, hget]
    rfl
  have hinv := Machine.Reach.invariant
    (P := fun s : Controller => HoldsHanded s ∧ Returns.InOrder jobs s.returns) ?_ ?_ h
  · exact hinv.2
  · show HoldsHanded (start p sockFd fuel) ∧ Returns.InOrder jobs (start p sockFd fuel).returns
    rw [hstart]
    exact ⟨fun _ hw => absurd hw List.not_mem_nil, .start jobs⟩
  · intro s input t hs _ hstep
    obtain ⟨hheld, hrun⟩ := returning_move hs.1 (move_of_step hstep)
    exact ⟨hheld, hs.2.run hrun⟩

/-! ### No worker is left waiting

The loop that hands out frames is left when there are no more, or when `get_idle_worker`
finds nobody.  From there to the call of `poll` nothing is added to the deque and nobody
becomes idle, so what made the loop end is still so.
-/

/-- There are no frames, or there is nobody to give one to. -/
def Saturated (s : Controller) : Prop :=
  s.frames = [] ∨ ∀ w ∈ s.remoteWorkers, w.isIdle = false

/-- The loop that hands out frames only ends when it has to. -/
theorem saturated_of_handedOut {s t : Controller} (hpc : s.pc = .handingOut)
    (h : step codec p s .tau = some t) : Saturated s := by
  unfold step at h
  simp only [hpc] at h
  split at h
  · split at h
    · rename_i hinput
      exact absurd hinput (by simp)
    · exact absurd h (by simp)
  · rename_i hnot
    by_cases hframes : s.frames = []
    · exact Or.inl hframes
    · refine Or.inr ?_
      obtain ⟨frame, rest, hcons⟩ := List.exists_cons_of_ne_nil hframes
      cases hidle : getIdleWorker s.remoteWorkers with
      | none => exact fun w hw => List.findIdx?_eq_none_iff.mp hidle w hw
      | some index => exact absurd hidle (hnot frame rest index hcons)

/-- Between two passes. -/
def Between (pc : Pc) : Prop := pc = .loopHead ∨ pc = .polling

theorem not_between_of_stopped {pc : Pc} (h : pc.stopped = true) : ¬ Between pc := by
  rintro (rfl | rfl)
  · exact absurd h (by simp [Pc.stopped])
  · exact absurd h (by simp [Pc.stopped])

theorem not_between_killWorker {s : Controller} {i index : Nat} {next : Pc}
    (h : ¬ Between next) : ¬ Between (s.killWorker i index next).pc := by
  unfold killWorker
  split
  · exact not_between_of_stopped rfl
  · exact h

theorem not_between_nextEntry (i : Nat) : ¬ Between (nextEntry i) := by
  cases i <;> simp [Between, nextEntry]

/-- Between two passes nobody is left waiting. -/
def Settles (s : Controller) : Prop := Between s.pc → Saturated s

/-- **Every step keeps that.** -/
theorem settles_step {s t : Controller} {input : Input} (h : Settles s)
    (hstep : step codec p s input = some t) : Settles t := by
  have hmove := move_of_step hstep
  -- most steps do not end between two passes
  suffices hcases : Saturated t ∨ ¬ Between t.pc from
    fun hbetween => hcases.resolve_right (not_not.mpr hbetween)
  cases hmove with
  | connect hpc =>
      refine Or.inl (connectProxies_of (R := Saturated) (fun _ _ _ hu => hu) ?_ _ _ _ s
        (h (Or.inl hpc)))
      intro u w hu hnew
      refine hu.imp_right fun hbusy x hx => ?_
      rcases List.mem_append.mp hx with hx | hx
      · exact hbusy x hx
      · obtain ⟨fd, proxyIndex, rfl⟩ := hnew
        rw [List.mem_singleton] at hx
        rw [hx]
        rfl
  | accept hpc =>
      refine Or.inr (acceptWorker_of (R := fun t => ¬ Between t.pc) ?_ (fun _ _ hu _ => hu) _ _ ?_)
      · rintro u pc (hstopped | rfl) -
        · exact not_between_of_stopped hstopped
        · simp [Between]
      · simp [hpc, Between]
  | receive =>
      refine Or.inr (receiveFrom_of (R := fun t => ¬ Between t.pc)
        (fun _ => not_between_of_stopped) ?_ ?_)
      · exact fun _ _ => by simp [Between]
      · exact fun _ => not_between_killWorker (by simp [Between])
  | send =>
      refine Or.inr (sendTo_of (R := fun t => ¬ Between t.pc)
        (fun _ => not_between_of_stopped) ?_)
      exact fun _ _ _ => by simp [Between]
  | skipCheck => exact Or.inr (not_between_nextEntry _)
  | kill => exact Or.inr (not_between_killWorker (not_between_nextEntry _))
  | assign hpc =>
      refine Or.inr (after_of (R := fun t => ¬ Between t.pc)
        (fun _ => not_between_of_stopped) ?_)
      exact fun _ _ => by simp [hpc, Between]
  | nextTurn hpc =>
      have hsaturated : Saturated s := saturated_of_handedOut hpc hstep
      exact Or.inl hsaturated
  | _ => exact Or.inr (by simp [Between])

/--
**Frames are handed out in order, and nobody waits for one in vain.**  In every state the
controller can reach, the frames that were ever handed out are the first so many of the
range; the deque holds those that have come back from lost workers, followed by the rest
of the range; and no more were handed out than the range and the workers lost account
for.  Whenever it polls, there are no frames left or no worker is idle.
-/
theorem frames_in_order (codec : Codec) (p : Parameters) (sockFd : Int) (fuel : Nat)
    (jobs : List Int) (hget : p.frames.getAll fuel = .ok jobs) (s : Controller)
    (h : (machine codec p sockFd fuel).Reach Machine.Any s) :
    (∃ n back, s.frames = back ++ jobs.drop n ∧ (∀ f ∈ back, f ∈ jobs.take n) ∧
      ∀ f, f ∈ s.handed ↔ f ∈ jobs.take n) ∧
    s.handed.length + s.frames.length ≤ jobs.length + s.killed.length ∧
    (s.pc = .polling → s.frames = [] ∨ ∀ w ∈ s.remoteWorkers, w.isIdle = false) := by
  obtain ⟨n, back, hsplit⟩ := reach_inOrder hget h
  have hqueue : s.frames = back ++ jobs.drop n := hsplit.queue
  have hcount : s.handed.length + back.length ≤ n + s.killed.length := hsplit.count
  have hle := hsplit.le
  refine ⟨⟨n, back, hqueue, hsplit.back_mem, hsplit.taken_iff⟩, ?_, ?_⟩
  · rw [hqueue, List.length_append, List.length_drop]
    omega
  · intro hpc
    refine Machine.Reach.invariant (P := Settles) ?_ (fun _ _ _ hs _ => settles_step hs) h
      (Or.inr hpc)
    refine start_of Settles fun s hworkers _ _ _ _ _ => Or.inr ?_
    rw [hworkers]
    exact fun w hw => absurd hw List.not_mem_nil

/-- The worker is lost while it renders. -/
def lostRendering : Controller :=
  replay Machine.Any (arrival ++ requested 6 ++ answering welcomed ++
    answered { pollin := true } welcomed ++ [.tau, .tau] ++ rest [.assign noFiles] ++
    reported { pollhup := true } ++ [.tau, .tau, .tau]) (start oneFrame 3 5)

theorem frames_in_order_lostRendering :
    lostRendering.handed = [1] ∧
    (∃ n back, lostRendering.frames = back ++ [1].drop n ∧ (∀ f ∈ back, f ∈ [1].take n) ∧
      ∀ f, f ∈ lostRendering.handed ↔ f ∈ [1].take n) ∧
    lostRendering.handed.length + lostRendering.frames.length
      ≤ [(1 : Int)].length + lostRendering.killed.length ∧
    (lostRendering.pc = .polling →
      lostRendering.frames = [] ∨ ∀ w ∈ lostRendering.remoteWorkers, w.isIdle = false) :=
  ⟨by decide +kernel, frames_in_order drpCodec oneFrame 3 5 [1] (by decide) lostRendering
    (run_replay _ (by decide +kernel))⟩

end Controller

end Distray
