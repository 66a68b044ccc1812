/-
A system is its pairs.

What the controller's loop does with one of its workers, and what happens at the other
end of that worker's connection, is a run of the pair of the two; the loop adds nothing
that a pair alone could not do.  So what holds in every run of a pair from a fresh
connection on holds for each worker of a system, whatever the others are doing.

A step of the controller may be several of a pair, or none.  A pass of the loop can make a
worker receive and send, and give it a frame, and of all that the worker has one call at a
time.
-/
import Distray.Proofs.Delivery
import Distray.Proofs.Rendering

namespace Distray

namespace Pair

/-- A worker that has just been accepted, or connected to for a proxy. -/
def fresh (addr : Nat) (fd proxyIndex : Int) (hops : Nat) : Pair :=
  ⟨{ RemoteWorker.make addr fd with proxyIndex := proxyIndex }, Link.make hops, .running⟩

variable {codec : Codec} {p : Parameters}

/-! ### The steps that succeed -/

theorem step_start {s : Pair} {files : Files} {w : RemoteWorker} (hrunning : s.status = .running)
    (hs : s.worker.state = .sendWelcomeRequest) (hok : s.worker.start codec p files = .ok w) :
    step codec p s (.start files) = some { s with worker := w } := by
  rw [step, if_pos hrunning]
  show (if s.worker.state = .sendWelcomeRequest then _ else none) = _
  rw [if_pos hs, hok]
  rfl

theorem step_recv {s : Pair} {data : Bytes} {files : Files} {l : Link} {w : RemoteWorker}
    (hrunning : s.status = .running)
    (hfit : s.worker.incomingBuffer.admits (.ok data) = true)
    (hdeliver : s.link.deliver data = some l)
    (hok : s.worker.receive codec p files (.ok data) = .ok (.ok w)) :
    step codec p s (.recv (.ok data) files) = some { s with worker := w, link := l } := by
  rw [step, if_pos hrunning]
  show (if s.worker.incomingBuffer.admits (.ok data) = true then _ else none) = _
  rw [if_pos hfit, delivered, hdeliver, hok]
  rfl

theorem step_send {s : Pair} {r : Except Errno Nat} {w : RemoteWorker} {out : Bytes}
    (hrunning : s.status = .running) (hfit : s.worker.outgoingBuffer.admits r = true)
    (hok : s.worker.send r = .ok (w, out)) :
    step codec p s (.send r) = some { s with worker := w, link := s.link.post out } := by
  rw [step, if_pos hrunning]
  show (if s.worker.outgoingBuffer.admits r = true then _ else none) = _
  rw [if_pos hfit, hok]

theorem step_runFrame {s : Pair} {frame : Int} {files : Files} {w : RemoteWorker}
    (hrunning : s.status = .running) (hok : s.worker.runFrame codec p files frame = .ok w) :
    step codec p s (.runFrame frame files) = some { s with worker := w } := by
  rw [step, if_pos hrunning]
  show (if s.worker.isIdle = true then _ else none) = _
  rw [if_pos (RemoteWorker.runFrame_eq_ok hok).1, hok]
  rfl

theorem step_link {s : Pair} {input : Link.Input} {l : Link} (hrunning : s.status = .running)
    (hl : s.link.step codec input = some l) :
    step codec p s (.link input) = some { s with link := l } := by
  rw [step, if_pos hrunning]
  show (s.link.step codec input).map _ = _
  rw [hl]
  rfl

/-- A step to a state in which the messages fit extends a run. -/
theorem run_step {addr : Nat} {fd : Int} {hops : Nat} {s t u : Pair} {input : Input}
    (h : (machine codec p addr fd hops).Run (Fits codec p) s t)
    (hstep : step codec p t input = some u) (hfits : messagesFit codec u.worker u.link = true) :
    (machine codec p addr fd hops).Run (Fits codec p) s u := by
  refine .step h ?_ hstep
  intro v hv
  rw [hstep, Option.mem_some_iff] at hv
  exact hv ▸ hfits

/-- How a worker and its link came about: by a run of the pair from a fresh connection on. -/
def Conversed (codec : Codec) (p : Parameters) (w : RemoteWorker) (l : Link) : Prop :=
  ∃ (fd proxyIndex : Int) (hops : Nat), (machine codec p w.addr fd hops).Run (Fits codec p)
    (fresh w.addr fd proxyIndex hops) ⟨w, l, .running⟩

end Pair

namespace System

open RemoteWorker Controller

variable {codec : Codec} {p : Parameters} {hops : Nat → Nat}

/-- **What the calls and the links keep holds of every worker in every reachable state.** -/
theorem reach_attached {R : RemoteWorker → Link → Prop} (hsound : codec.Sound)
    (hR : Keeps codec p fun w l => messagesFit codec w l = true → R w l)
    (hlink : ∀ {w : RemoteWorker} {l l' : Link} {input : Link.Input}, InStep codec w l → R w l →
      l.step codec input = some l' → messagesFit codec w l' = true → R w l')
    {sockFd : Int} {fuel : Nat} {s : System}
    (h : (machine codec p sockFd fuel hops).Reach (Fits codec p) s)
    (hrunning : s.controller.pc.stopped = false) :
    ∀ w ∈ s.controller.remoteWorkers, R w (s.links w.addr) := by
  suffices hall : Inv codec hops s ∧ (s.controller.pc.stopped = false →
      Attached (fun w l => messagesFit codec w l = true → R w l) hops s.links s.controller) by
    exact fun w hw => (hall.2 hrunning).each w hw (hall.1.fits w hw)
  clear hrunning
  refine Machine.Reach.invariant (P := fun s => Inv codec hops s ∧
    (s.controller.pc.stopped = false →
      Attached (fun w l => messagesFit codec w l = true → R w l) hops s.links s.controller))
    ?_ ?_ h
  · have hnone : ∀ w, w ∉ (Controller.start p sockFd fuel).remoteWorkers := by
      have hworkers : (Controller.start p sockFd fuel).remoteWorkers = [] :=
        start_of (fun c => c.remoteWorkers = []) fun _ hworkers _ _ _ _ => hworkers
      rw [hworkers]
      exact fun w => List.not_mem_nil
    have hinit : (machine codec p sockFd fuel hops).Reach (Fits codec p)
        (machine codec p sockFd fuel hops).init := .init
    exact ⟨reach_inv hsound hinit, fun _ => ⟨fun _ _ => rfl, fun w hw => absurd hw (hnone w)⟩⟩
  · rintro s input t ⟨hinv, hattached⟩ hfits hstep
    refine ⟨hinv.step hsound hfits hstep, ?_⟩
    cases input with
    | controller input =>
        change System.step codec p s (.controller input) = some t at hstep
        rw [System.step] at hstep
        split at hstep
        · rename_i links c htransport hc
          rw [Option.some.injEq] at hstep
          subst hstep
          have hgoing := not_stopped_of_step hc
          exact attached_of_move hR hinv (hattached hgoing) hgoing htransport (move_of_step hc)
        · exact absurd hstep (by simp)
    | link addr input =>
        change System.step codec p s (.link addr input) = some t at hstep
        rw [System.step] at hstep
        split at hstep
        · rename_i haddr
          obtain ⟨l, hl, rfl⟩ := Option.map_eq_some_iff.mp hstep
          intro hgoing
          refine (hattached hgoing).update haddr ?_
          rintro w hw rfl hfit
          have hattachedHere := (hattached hgoing).each w hw (hinv.fits w hw)
          exact hlink (hinv.inStep hgoing hw) hattachedHere hl hfit
        · exact absurd hstep (by simp)

theorem keeps_conversed :
    Keeps codec p fun w l => messagesFit codec w l = true → Pair.Conversed codec p w l where
  newcomer := by
    rintro addr n w ⟨fd, proxyIndex, rfl⟩ hfit
    refine ⟨fd, proxyIndex, n, ?_⟩
    have hok : (Pair.fresh addr fd proxyIndex n).worker.start codec p noFiles =
        .ok (newcomer codec addr fd proxyIndex) := start_make addr fd proxyIndex
    have hstep := Pair.step_start (s := Pair.fresh addr fd proxyIndex n) rfl rfl hok
    exact Pair.run_step (.refl _) hstep hfit
  receive := by
    intro w w' l l' data files _ hfit hR hadmits hdeliver hok hfit'
    obtain ⟨fd, proxyIndex, n, hrun⟩ := hR hfit
    rw [← (receive_same hok).1] at hrun
    exact ⟨fd, proxyIndex, n, Pair.run_step hrun (Pair.step_recv rfl hadmits hdeliver hok) hfit'⟩
  send := by
    intro w w' l r out _ hfit hR hadmits hok hfit'
    obtain ⟨fd, proxyIndex, n, hrun⟩ := hR hfit
    have haddr : w'.addr = w.addr := by
      obtain ⟨b, -, rfl⟩ := send_eq_ok hok
      rfl
    rw [← haddr] at hrun
    exact ⟨fd, proxyIndex, n, Pair.run_step hrun (Pair.step_send rfl hadmits hok) hfit'⟩
  runFrame := by
    intro w w' l frame files _ hfit hR hok hfit'
    obtain ⟨fd, proxyIndex, n, hrun⟩ := hR hfit
    rw [← (runFrame_same hok).1] at hrun
    exact ⟨fd, proxyIndex, n, Pair.run_step hrun (Pair.step_runFrame rfl hok) hfit'⟩

/--
**Each worker of a system is one end of a pair.**  In every state that a controller
with any number of workers can reach, each worker with its link is in a state that the
pair of them alone reaches from a fresh connection: what the loop does with it, in
whatever order and between whatever it does with the others, is a run of the pair.
-/
theorem workers_are_pairs (codec : Codec) (hsound : codec.Sound) (p : Parameters) (sockFd : Int)
    (fuel : Nat) (hops : Nat → Nat) (s : System)
    (h : (machine codec p sockFd fuel hops).Reach (Fits codec p) s)
    (hrunning : s.controller.pc.stopped = false) (w : RemoteWorker)
    (hw : w ∈ s.controller.remoteWorkers) : Pair.Conversed codec p w (s.links w.addr) := by
  refine reach_attached (R := Pair.Conversed codec p) hsound keeps_conversed ?_ h hrunning w hw
  rintro w l l' input - ⟨fd, proxyIndex, n, hrun⟩ hl hfit
  exact ⟨fd, proxyIndex, n, Pair.run_step hrun (Pair.step_link rfl hl) hfit⟩

/-- The worker that waits for its renderer. -/
theorem workers_are_pairs_judged :
    Pair.Conversed drpCodec oneFrame (judged .clean)
      ((beforeVerdict .clean).links (judged .clean).addr) :=
  workers_are_pairs drpCodec drpCodec_sound oneFrame 3 5 (fun _ => 0) (beforeVerdict .clean)
    (reach_beforeVerdict (by decide +kernel)) (by decide +kernel) (judged .clean)
    (by decide +kernel)

end System

end Distray
