/-
When `accept` fails.

Both loops test the result of `poll` again after the call of `accept`, so they never
see that it has failed, and go on with -1 as a descriptor.  The controller makes a
worker of it, every time.  The proxy looks for a connection that lacks a side and
stores -1 there, which changes nothing if there is one; if there is none it makes a
connection that has neither side, and that one waits for both kinds at once.

Whether that does any harm depends on the state, and so the result about runs has a
condition on each of their steps: that `accept` succeeds, or that it fails where the -1 goes
into a place that has one.
-/
import Distray.Proofs.Descriptors
import Distray.Proofs.Pass

namespace Distray

namespace Controller

variable {codec : Codec} {p : Parameters}

/-- The program has returned its error code, or goes on with the workers it had. -/
def Intact (s t : Controller) : Prop :=
  t.pc = .returned (-1) ∨ t.remoteWorkers = s.remoteWorkers

theorem not_intact {s t : Controller} {files : Files} (hresult : s.result ≠ -1)
    (hmove : Move codec p s (.accept (-1) files) t) : ¬ Intact s t := by
  cases hmove with
  | accept =>
      rw [acceptWorker_eq, if_neg hresult]
      rintro (hpc | hsame)
      · exact absurd hpc (by simp)
      · have hlen := congrArg List.length hsame
        simp [join] at hlen

/-- `accept` succeeds, and `create_client_socket` returns a descriptor or -1. -/
def socketsOk (p : Parameters) : Input → Bool
  | .accept fd _ => 0 ≤ fd
  | .connect fd _ => (List.range p.proxyEndpoints.length).all fun k => -1 ≤ fd k
  | _ => true

abbrev SocketsOk (p : Parameters) (_ : Controller) (input : Input) : Prop :=
  socketsOk p input = true

theorem nonneg_of_given {s : Controller} {input : Input} (h : SocketsOk p s input) :
    ∀ fd ∈ Accounts.given p s input, 0 ≤ fd := by
  intro fd hfd
  unfold Accounts.given at hfd
  split at hfd
  · rename_i fds files hpc
    have hne : fd ≠ -1 := by simpa using List.all_eq_true.mp List.all_takeWhile fd hfd
    obtain ⟨k, hk, rfl⟩ := List.mem_map.mp ((List.takeWhile_sublist _).subset hfd)
    have hlt := List.mem_range.mp (List.mem_filter.mp hk).1
    have hrange : -1 ≤ fds k := by
      simp only [SocketsOk, socketsOk, List.all_eq_true, List.mem_range, decide_eq_true_eq] at h
      exact h k hlt
    omega
  · rename_i fd' files hpc
    rw [List.mem_singleton] at hfd
    simpa [hfd, SocketsOk, socketsOk] using h
  · exact absurd hfd List.not_mem_nil

/-- Where every `accept` succeeds, every worker has a descriptor. -/
theorem reach_fd_nonneg {sockFd : Int} {fuel : Nat} {s : Controller}
    (h : (machine codec p sockFd fuel).Reach (SocketsOk p) s) :
    ∀ w ∈ s.remoteWorkers, 0 ≤ w.fd := by
  suffices hall : s.result ≠ -1 ∧ ∀ fd ∈ s.remoteWorkers.map RemoteWorker.fd, 0 ≤ fd from
    fun w hw => hall.2 w.fd (List.mem_map_of_mem hw)
  refine Machine.Reach.invariant
    (P := fun s => s.result ≠ -1 ∧ ∀ fd ∈ s.remoteWorkers.map RemoteWorker.fd, 0 ≤ fd) ?_ ?_ h
  · refine ⟨result_start, ?_⟩
    exact start_of (fun s => ∀ fd ∈ s.remoteWorkers.map RemoteWorker.fd, 0 ≤ fd)
      fun s hworkers _ _ _ _ => by simp [hworkers]
  · rintro s input t ⟨hresult, hfds⟩ hok hstep
    have hmove := move_of_step hstep
    refine ⟨result_of_move hresult hmove, ?_⟩
    intro fd hfd
    have hmem := (Accounts.descriptors_of_move hresult hmove).mem_iff.mp
      (List.mem_append_right _ hfd)
    rcases List.mem_append.mp hmem with hgiven | hold
    · exact nonneg_of_given hok fd hgiven
    · exact hfds fd hold

end Controller

namespace Proxy

/-- The program has returned its error code, or goes on with the connections it had. -/
def Intact (s t : Proxy) : Prop := t.pc = .returned (-1) ∨ t.connections = s.connections

/-- A failed `accept` does no harm if a connection lacks that side. -/
theorem intact_iff {s t : Proxy} {i : Nat} (h : Steady s) (hpc : s.pc = .receiving i)
    (hmove : Move s (.accept (-1)) t) : Intact s t ↔ ∃ c ∈ s.connections, c.fd (side i) = -1 := by
  cases hmove with
  | @accept j entry _ hpc' =>
      rw [hpc, Pc.receiving.injEq] at hpc'
      subst hpc'
      have hacc := h.loose.acceptOn h.pass.polled i (-1)
      obtain ⟨hnext, -, -, -⟩ := hacc.same
      rcases hacc.failed.2 with ⟨hlacks, hsame, -⟩ | ⟨hall, hadd⟩
      · exact ⟨fun _ => hlacks, fun _ => Or.inr hsame⟩
      · constructor
        · rintro (hret | hsame)
          · exact absurd (hnext.symm.trans hret) (by simp)
          · have hlen := congrArg List.length (hadd.symm.trans hsame)
            simp at hlen
        · rintro ⟨c, hc, hlacks⟩
          exact absurd hlacks (hall c hc)

theorem reach_harmless {workerServerFd controllerServerFd : Int} {s : Proxy}
    (h : (machine workerServerFd controllerServerFd).Reach Harmless s) : Inv s :=
  Machine.Reach.invariant (P := Inv) ⟨Table.start _ _, Pass.start _ _⟩
    (fun _ _ _ hs hok hstep => hs.move hok (move_of_step hstep)) h

end Proxy

/--
**What a failed `accept` does.**  In the controller it never leaves the state intact;
in the proxy it does if and only if some connection lacks the side it was for.  And in
every run in which it only fails where it does no harm, the controller's workers all
have descriptors, every connection of the proxy has one, and workers and controllers
never wait at the same time.
-/
theorem failed_accepts (codec : Codec) (p : Parameters) (sockFd : Int) (fuel : Nat)
    (workerServerFd controllerServerFd : Int) :
    (∀ s, (Controller.machine codec p sockFd fuel).Reach Machine.Any s → ∀ fd files t,
      Controller.step codec p s (.accept fd files) = some t →
      ((fd = -1 → Controller.Intact s t) ↔ fd ≠ -1)) ∧
    (∀ s, (Proxy.machine workerServerFd controllerServerFd).Reach Proxy.MayAccept s →
      ∀ i fd t, s.pc = .receiving i → Proxy.step s (.accept fd) = some t →
      ((fd = -1 → Proxy.Intact s t) ↔
        fd ≠ -1 ∨ ∃ c ∈ s.connections, c.fd (Proxy.side i) = -1)) ∧
    (∀ s, (Controller.machine codec p sockFd fuel).Reach (Controller.SocketsOk p) s →
      ∀ w ∈ s.remoteWorkers, 0 ≤ w.fd) ∧
    ∀ s, (Proxy.machine workerServerFd controllerServerFd).Reach Proxy.Harmless s →
      (∀ c ∈ s.connections, c.workerFd ≠ -1 ∨ c.controllerFd ≠ -1) ∧
      ¬ ((∃ c ∈ s.connections, c.controllerFd = -1) ∧ ∃ c ∈ s.connections, c.workerFd = -1) := by
  refine ⟨?_, ?_, fun s h => Controller.reach_fd_nonneg h, ?_⟩
  · intro s h fd files t hstep
    constructor
    · rintro hintact rfl
      exact Controller.not_intact (Controller.reach_result h) (Controller.move_of_step hstep)
        (hintact rfl)
    · intro hne heq
      exact absurd heq hne
  · intro s h i fd t hpc hstep
    by_cases hfd : fd = -1
    · subst hfd
      have hiff := Proxy.intact_iff (Proxy.reach_steady h) hpc (Proxy.move_of_step hstep)
      simpa using hiff
    · simp [hfd]
  · intro s h
    have hinv := Proxy.reach_harmless h
    exact ⟨hinv.some_side, hinv.not_both_wait⟩

/-! Connections that are lost between `poll` and `accept`. -/

/-- The controller is about to accept a connection. -/
def Controller.accepting : Controller :=
  replay Machine.Any [.connect (fun _ => -1) noFiles, .poll 1 [{ pollin := true }]]
    (Controller.start Controller.oneFrame 3 5)

/-- The proxy is, on the workers' socket. -/
def Proxy.accepting : Proxy :=
  after (start 3 4) [.poll 1 [{ pollin := true }, {}]]

theorem Controller.reach_accepting :
    (Controller.machine drpCodec oneFrame 3 5).Reach Machine.Any Controller.accepting :=
  Controller.run_replay _ (by decide +kernel)

theorem Proxy.reach_accepting : (Proxy.machine 3 4).Reach Proxy.MayAccept Proxy.accepting :=
  Machine.Run.mono (fun _ _ => FreshAccept.may) (run_after (by decide +kernel))

theorem failed_accepts_accepting :
    ¬ Controller.Intact Controller.accepting
      (Controller.accepting.acceptWorker drpCodec Controller.oneFrame (-1) Controller.noFiles) ∧
    ¬ Proxy.Intact Proxy.accepting (Proxy.accepting.acceptOn 0 (-1)) ∧
    (∀ w ∈ (Controller.start Controller.oneFrame 3 5).remoteWorkers, 0 ≤ w.fd) ∧
    ∀ c ∈ (Proxy.start 3 4).connections, c.workerFd ≠ -1 ∨ c.controllerFd ≠ -1 := by
  obtain ⟨hcontroller, hproxy, hworkers, hsides⟩ :=
    failed_accepts drpCodec Controller.oneFrame 3 5 3 4
  refine ⟨?_, ?_, hworkers _ Machine.Reach.init, (hsides _ Machine.Reach.init).1⟩
  · intro hintact
    exact (hcontroller _ Controller.reach_accepting (-1) Controller.noFiles _ rfl).mp
      (fun _ => hintact) rfl
  · intro hintact
    have hlacks := (hproxy _ Proxy.reach_accepting 0 (-1) _ rfl rfl).mp fun _ => hintact
    exact absurd hlacks (by decide +kernel)

/-- The controller makes a worker without a descriptor, the proxy such a connection. -/
theorem failed_accepts_not_intact :
    (¬ ∀ (codec : Codec) (p : Parameters) (sockFd : Int) (fuel : Nat) (s t : Controller)
      (files : Files), (Controller.machine codec p sockFd fuel).Reach Machine.Any s →
      Controller.step codec p s (.accept (-1) files) = some t → Controller.Intact s t) ∧
    ¬ ∀ (workerServerFd controllerServerFd : Int) (s t : Proxy),
      (Proxy.machine workerServerFd controllerServerFd).Reach Proxy.MayAccept s →
      Proxy.step s (.accept (-1)) = some t → Proxy.Intact s t := by
  refine ⟨?_, ?_⟩
  · intro h
    have hintact := h drpCodec Controller.oneFrame 3 5 Controller.accepting _ Controller.noFiles
      Controller.reach_accepting rfl
    rcases hintact with hpc | hsame
    · exact absurd hpc (by decide +kernel)
    · exact absurd (congrArg List.length hsame) (by decide +kernel)
  · intro h
    have hintact := h 3 4 Proxy.accepting _ Proxy.reach_accepting rfl
    rcases hintact with hpc | hsame
    · exact absurd hpc (by decide +kernel)
    · exact absurd (congrArg List.length hsame) (by decide +kernel)

end Distray
