/-
The controller does not sleep through anything.

When it calls `poll`, each of its workers is idle or waits for a response, and each of
them wants more bytes, so that its end of the connection is watched in any case.  If a
worker waits and the program at the other end is alive, then whatever the next thing is
that has to happen for it, either it can happen without the controller, or it is among
what the controller asked `poll` for.

A worker that is idle is watched as well, though nothing is expected from it.  It is how the
controller finds out that its connection has been closed.
-/
import Distray.Proofs.Progress
import Distray.Proofs.Carried

namespace Distray

namespace System

open RemoteWorker Controller

variable {codec : Codec} {p : Parameters} {hops : Nat → Nat}

/-- The calls of the controller leave its workers wanting more. -/
theorem keeps_hungry :
    Keeps codec p fun w l => messagesFit codec w l = true → w.Hungry where
  newcomer := by
    rintro addr n w ⟨fd, proxyIndex, rfl⟩ -
    rfl
  receive := by
    intro w w' l l' data files hin _ _ hadmits hdeliver hok _
    exact Pair.receive_hungry hin hadmits hdeliver hok
  send := by
    intro w w' l r out _ hfit hR _ hok _
    obtain ⟨b, -, rfl⟩ := send_eq_ok hok
    exact hR hfit
  runFrame := by
    intro w w' l frame files _ hfit hR hok _
    exact dispatch_hungry (runFrame_eq_ok hok).2 (Or.inl (hR hfit))

/-- **Every worker of a system wants more bytes.** -/
theorem reach_hungry (hsound : codec.Sound) {sockFd : Int} {fuel : Nat} {s : System}
    (h : (machine codec p sockFd fuel hops).Reach (Fits codec p) s)
    (hrunning : s.controller.pc.stopped = false) :
    ∀ w ∈ s.controller.remoteWorkers, w.Hungry :=
  reach_attached (R := fun w _ => w.Hungry) hsound keeps_hungry (fun _ hw _ _ => hw) h hrunning

/-- What can happen for a worker while the controller sleeps, or wakes it. -/
inductive Stirs (codec : Codec) (w : RemoteWorker) (l : Link) : Prop
  /-- There is room to be waited for, for bytes that are still to be sent. -/
  | sends (hasked : w.fillPollfd.events.pollout = true) (hunsent : w.outgoingBuffer.unsent ≠ [])
  /-- There are bytes to be received. -/
  | receives (hasked : w.fillPollfd.events.pollin = true) {b : UInt8} {l' : Link}
      (hthere : l.deliver [b] = some l')
  /-- The program at the other end can go on, or bytes can move towards one of the two. -/
  | elsewhere {input : Link.Input} {l' : Link} (hproductive : (⟨w, l, .running⟩ : Pair).Productive
      (.link input)) (hstep : l.step codec input = some l')

theorem deliver_one {l l' : Link} {b : UInt8} {data : Bytes}
    (h : l.deliver (b :: data) = some l') : ∃ l₁, l.deliver [b] = some l₁ := by
  rw [Link.deliver, if_neg (by simp)] at h
  obtain ⟨c, hc, -⟩ := Option.map_eq_some_iff.mp h
  rw [Link.deliver, if_neg (by simp)]
  unfold Chain.take at hc ⊢
  split at hc
  · rw [if_neg (by simp)] at hc
    exact absurd hc (by simp)
  · split at hc
    · rename_i hpre
      obtain ⟨t, ht⟩ := hpre
      rw [if_pos ⟨data ++ t, by simpa using ht⟩]
      exact ⟨_, rfl⟩
    · exact absurd hc (by simp)

/-- **A worker that waits for the response of a program that is alive can go on.** -/
theorem stirs_of_expects (p : Parameters) {w : RemoteWorker} {l : Link} (hin : InStep codec w l)
    (hhungry : w.Hungry) (hexpects : w.state.expects ≠ none)
    (halive : ∀ code, l.process ≠ .returned code) (hfit : messagesFit codec w l = true) :
    Stirs codec w l := by
  have hgoing : ¬ Pair.Over codec w.responses.length ⟨w, l, .running⟩ := by
    rintro (hmore | hstatus | ⟨code, hcode⟩ | hlarge)
    · exact absurd hmore (Nat.lt_irrefl _)
    · exact hstatus rfl
    · exact halive code hcode
    · rw [hfit] at hlarge
      exact absurd hlarge (by simp)
  obtain ⟨input, t, hproductive, hstep⟩ := Pair.exists_productive (p := p)
    (s := ⟨w, l, .running⟩) hin hhungry hexpects hgoing
  unfold Pair.step at hstep
  rw [if_pos rfl] at hstep
  cases input with
  | start files => exact absurd hproductive id
  | runFrame frame files => exact absurd hproductive id
  | recv r files =>
      cases r with
      | error e => exact absurd hproductive id
      | ok data =>
          obtain ⟨b, rest, rfl⟩ := List.exists_cons_of_ne_nil hproductive
          change (if _ then (Pair.delivered _ _).map _ else none) = some t at hstep
          split at hstep
          · obtain ⟨l, hdeliver, -⟩ := Option.map_eq_some_iff.mp hstep
            obtain ⟨l₁, hthere⟩ := deliver_one hdeliver
            exact .receives hhungry hthere
          · exact absurd hstep (by simp)
  | send r =>
      cases r with
      | error e => exact absurd hproductive id
      | ok n =>
          have hpos : 0 < n := hproductive
          change (if _ then _ else none) = some t at hstep
          split at hstep
          · rename_i hfit
            simp only [OutgoingBuffer.admits, decide_eq_true_eq] at hfit
            have hunsent : w.outgoingBuffer.unsent ≠ [] := by
              rw [← List.length_pos_iff, OutgoingBuffer.length_unsent hin.tidy.outgoing]
              omega
            exact .sends ((OutgoingBuffer.needSend_iff hin.tidy.outgoing).mpr hunsent) hunsent
          · exact absurd hstep (by simp)
  | link input =>
      obtain ⟨l, hl, -⟩ := Option.map_eq_some_iff.mp hstep
      exact .elsewhere hproductive hl

theorem expects_of_busy {s : Controller} {ok : Controller → Controller.Input → Prop} {sockFd : Int}
    {fuel : Nat} (h : (Controller.machine codec p sockFd fuel).Reach ok s) {w : RemoteWorker}
    (hw : w ∈ s.remoteWorkers) (hbusy : w.isIdle = false) : w.state.expects ≠ none := by
  rcases RemoteWorker.expects_of_resting (Controller.reach_resting h w hw) with hidle | ⟨t, ht⟩
  · exact absurd hidle (by simp [hbusy])
  · rw [ht]
    simp

end System

/--
**The controller does not sleep through anything.**  Whenever it calls `poll`, it asks
for each worker to be told when there are bytes to receive, or that the connection is
closed.  And if a worker is not idle and the program at the other end is alive, then the
next thing that has to happen for it can happen elsewhere, or is there and has been asked
for, or is to send bytes, and that has been asked for as well.
-/
theorem controller_is_woken (codec : Codec) (hsound : codec.Sound) (p : Parameters) (sockFd : Int)
    (fuel : Nat) (hops : Nat → Nat) (s : System)
    (h : (System.machine codec p sockFd fuel hops).Reach (System.Fits codec p) s)
    (hpc : s.controller.pc = .polling) (w : RemoteWorker)
    (hw : w ∈ s.controller.remoteWorkers) :
    w.fillPollfd.events.pollin = true ∧
      (w.isIdle = false → (∀ code, (s.links w.addr).process ≠ .returned code) →
        System.Stirs codec w (s.links w.addr)) := by
  have hrunning : s.controller.pc.stopped = false := by rw [hpc]; rfl
  have hinv := System.reach_inv hsound h
  have hin := hinv.inStep hrunning hw
  have hhungry : w.Hungry := System.reach_hungry hsound h hrunning w hw
  refine ⟨hhungry, ?_⟩
  intro hbusy halive
  have hexpects := System.expects_of_busy (System.reach_controller h) hw hbusy
  exact System.stirs_of_expects p hin hhungry hexpects halive (hinv.fits w hw)

/-! The length of the welcome response has been received, and the rest of it is there. -/

namespace System

def halfWelcomed : System :=
  ((machine drpCodec Controller.oneFrame 3 5 fun _ => 0).exec (Fits drpCodec Controller.oneFrame)
    beginning (Controller.arrival.map .controller ++
      exchange .clean RemoteWorker.welcomeRequest ++
      [.controller (.connect (fun _ => -1) Controller.noFiles)])).getD beginning

theorem reach_halfWelcomed :
    (machine drpCodec Controller.oneFrame 3 5 fun _ => 0).Reach
      (Fits drpCodec Controller.oneFrame) halfWelcomed :=
  Machine.Run.of_replay (by decide +kernel)

/-- The worker that it is for. -/
def welcomedHalf : RemoteWorker := halfWelcomed.controller.remoteWorkers.headD (.make 0 4)

end System

theorem controller_is_woken_halfWelcomed :
    System.Stirs drpCodec System.welcomedHalf
      (System.halfWelcomed.links System.welcomedHalf.addr) := by
  have hreceiving : (System.halfWelcomed.links System.welcomedHalf.addr).process = .receiving := by
    decide +kernel
  have halive : ∀ code,
      (System.halfWelcomed.links System.welcomedHalf.addr).process ≠ .returned code := by
    intro code hcode
    exact absurd (hreceiving.symm.trans hcode) (by simp)
  exact (controller_is_woken drpCodec drpCodec_sound Controller.oneFrame 3 5 (fun _ => 0)
    System.halfWelcomed System.reach_halfWelcomed (by decide +kernel) System.welcomedHalf
    (by decide +kernel)).2 (by decide +kernel) halive

end Distray
