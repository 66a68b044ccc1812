/-
Work that goes well ends well.

When the files can be read and written, and each worker does what it is asked to and
answers so, nothing the workers report makes the controller give up.  What has to be
carried along for that is that the answers under way are good ones: a response is made by
a handler, lies in the queues as bytes and is decoded where it arrives, and it is the same
response all the time.

That a system in which everything goes well goes on takes a little more: where a handler
is to return, it has to be able to do what it was asked.  It can, because what is asked
for passed the check of the command line, and so it passes the worker's.
-/
import Distray.Proofs.Completion
import Distray.Proofs.Requests

namespace Distray

/-! ### Good answers

An answer is made, sent, forwarded, received and decoded, and only where it is made is there
anything that says it is good.  So this is carried along with it, as a property of the one
response that can be under way.
-/

/-- What was asked for was done. -/
def Response.succeeded (r : Response) : Bool :=
  match r.requestType with
  | .welcome => true
  | .copyIn => r.copyInResponse.success
  | .execute => r.executeResponse.status = 0
  | .copyOut => r.copyOutResponse.success

theorem Response.answers {r : Response} {job : Job} (h : r.succeeded = true)
    (htype : r.requestType = job.type) : job.Answers r := by
  refine ⟨htype, ?_⟩
  rw [Response.succeeded, htype] at h
  cases job with
  | welcome => trivial
  | copyIn source destination => exact h
  | execute executable arguments => exact of_decide_eq_true h
  | copyOut source destination => exact h

/-- Good, and not too large to be received. -/
structure Good (codec : Codec) (r : Response) : Prop where
  succeeded : r.succeeded = true
  small : (codec.serializeResponse r).length ≤ MAX_INCOMING_FILE_SIZE

/-- The response that is under way, if one is, is good. -/
structure Promising (codec : Codec) (w : RemoteWorker) (l : Link) : Prop where
  sending : ∀ r, l.process = .sending r → Good codec r
  inbound : ∀ r, inbound w l = frame (codec.serializeResponse r) → Good codec r

theorem frame_inj {data data' : Bytes} (h : frame data = frame data') : data = data' := by
  rw [frame_eq, frame_eq] at h
  have hwidth : (Octets.big 4 data.length).length = (Octets.big 4 data'.length).length := by
    rw [Octets.length_big, Octets.length_big]
  exact (List.append_inj h hwidth).2

namespace Promising

variable {codec : Codec} {p : Parameters} {files : Files}

/-- Where nothing is under way there is nothing to be said. -/
theorem of_nothing {w : RemoteWorker} {l : Link} (hprocess : ∀ r, l.process ≠ .sending r)
    (hin : Distray.inbound w l = []) : Promising codec w l :=
  ⟨fun r hr => absurd hr (hprocess r),
    fun _ hr => absurd (hin.symm.trans hr) (Ne.symm (lengthHeader.frame_ne_nil _))⟩

/-- `dispatch` leaves nothing in the buffer that comes in. -/
theorem of_settled {w : RemoteWorker} {l : Link} (h : w.Settled codec) (hl : l.Quiet) :
    Promising codec w l := by
  refine of_nothing ?_ ?_
  · intro _ hr
    have hwaiting := hl.process
    simp [hr, Process.waiting] at hwaiting
  · have htaken : w.incomingBuffer.taken = [] := by
      rcases h with h | ⟨request, h⟩
      · exact h.taken
      · exact h.taken
    rw [Distray.inbound, htaken, hl.toController]
    rfl

/-- **What the controller does with its workers leaves the answers as they are.** -/
theorem keeps : Controller.Keeps codec p (Promising codec) where
  newcomer := by
    rintro addr n w ⟨fd, proxyIndex, rfl⟩
    refine of_nothing (by simp [Link.make]) ?_
    simp [Distray.inbound, Link.make, RemoteWorker.sendRequest]
  receive := by
    intro w w' l l' data files' hin _ h hadmits hdeliver hok
    obtain ⟨hstream, -, hprocess, -⟩ := InStep.deliver_spec hdeliver
    obtain ⟨b, hb, ⟨-, rfl⟩ | ⟨hdone, hdispatch⟩⟩ := RemoteWorker.receive_eq_ok hok
    · have htaken := (IncomingBuffer.receive_extends hin.tidy.incoming hadmits hb).2
      have hsame : Distray.inbound { w with incomingBuffer := b } l' = Distray.inbound w l := by
        rw [Distray.inbound, Distray.inbound, hstream, htaken, List.append_assoc]
      refine ⟨fun r hr => h.sending r (hprocess ▸ hr), fun r hr => h.inbound r ?_⟩
      rw [← hsame]
      exact hr
    · obtain ⟨harrived, hquiet, -⟩ := hin.complete hadmits hdeliver hb hdone
      exact of_settled (harrived.dispatch hdispatch) hquiet
  send := by
    intro w w' l r out _ _ h _ hok
    obtain ⟨b, -, rfl⟩ := RemoteWorker.send_eq_ok hok
    exact ⟨h.sending, h.inbound⟩
  runFrame := by
    intro w w' l frame files' hin _ _ hok
    obtain ⟨hidle, hdispatch⟩ := RemoteWorker.runFrame_eq_ok hok
    have hs : w.state = .idle := by simpa [RemoteWorker.isIdle] using hidle
    obtain ⟨hready, hquiet⟩ := hin.ready (by rw [hs]; rfl)
    exact of_settled ((hready.given frame).dispatch hdispatch) hquiet

/-- A response that is about to be sent is all there is. -/
theorem inbound_of_sending {w : RemoteWorker} {l : Link} {response : Response}
    (h : InStep codec w l) (hprocess : l.process = .sending response) :
    Distray.inbound w l = [] ∧ (codec.serializeResponse response).length + 4 < 2 ^ 32 := by
  cases h.phase with
  | quiet _ _ _ hwaiting => simp [hprocess, Process.waiting] at hwaiting
  | requesting _ _ _ _ hwaiting => simp [hprocess, Process.waiting] at hwaiting
  | answering _ _ _ _ hwaiting => simp [hprocess, Process.waiting] at hwaiting
  | handling _ _ _ _ hhandling => exact absurd (hprocess.symm.trans hhandling) (by simp)
  | lost _ _ hreturned =>
      obtain ⟨code, hcode⟩ := hreturned
      exact absurd (hprocess.symm.trans hcode) (by simp)
  | responding response' _ _ hin hsending hfit =>
      rw [hprocess, Process.sending.injEq] at hsending
      exact ⟨hin, hsending ▸ hfit⟩

/-- So does the other end, if its handlers do what they are asked to. -/
theorem link {w : RemoteWorker} {l l' : Link} {input : Link.Input} (hsound : codec.Sound)
    (hin : InStep codec w l) (h : Promising codec w l) (hl : l.step codec input = some l')
    (hgood : ∀ env request, input = .handle env → l.process = .handling request →
      Good codec (Worker.handle env request)) : Promising codec w l' := by
  cases input with
  | forwardRequest k n =>
      rw [Link.step, Option.some.injEq] at hl
      subst hl
      exact ⟨h.sending, h.inbound⟩
  | forwardResponse k n =>
      rw [Link.step, Option.some.injEq] at hl
      subst hl
      refine ⟨h.sending, fun r hr => h.inbound r ?_⟩
      rw [Distray.inbound, Chain.stream_forward] at hr
      exact hr
  | receive =>
      rw [Link.step] at hl
      split at hl
      · split at hl
        · rename_i process left hreceived
          rw [Option.some.injEq] at hl
          subst hl
          refine ⟨fun r hr => ?_, h.inbound⟩
          obtain ⟨data, -, hreturned | ⟨-, hreturned⟩ | ⟨request, -, hhandling⟩⟩ :=
            Process.received_cases hreceived
          · exact absurd (hreturned.symm.trans hr) (by simp)
          · exact absurd (hreturned.symm.trans hr) (by simp)
          · exact absurd (hhandling.symm.trans hr) (by simp)
        · exact absurd hl (by simp)
      · exact absurd hl (by simp)
  | handle env =>
      rw [Link.step] at hl
      split at hl
      · rename_i request hprocess
        rw [Option.some.injEq] at hl
        subst hl
        refine ⟨fun r hr => ?_, h.inbound⟩
        rw [Process.sending.injEq] at hr
        exact hr ▸ hgood env request rfl hprocess
      · exact absurd hl (by simp)
  | send =>
      rw [Link.step] at hl
      split at hl
      · rename_i response hprocess
        rw [Option.some.injEq] at hl
        subst hl
        obtain ⟨hnil, hfit⟩ := inbound_of_sending hin hprocess
        obtain ⟨htaken, hqueue⟩ := List.append_eq_nil_iff.mp hnil
        refine ⟨fun r hr => absurd hr (by simp), fun r hr => ?_⟩
        -- the one response that is under way is the one that was sent
        rw [Distray.inbound, htaken, Chain.stream_put, hqueue, sendMessage_eq hfit] at hr
        have hsame := congrArg codec.parseResponse (frame_inj hr)
        rw [hsound.response, hsound.response, Option.some.injEq] at hsame
        exact hsame ▸ h.sending response hprocess
      · exact absurd hl (by simp)
  | fail code =>
      rw [Link.step] at hl
      split at hl
      · rw [Option.some.injEq] at hl
        subst hl
        exact ⟨fun r hr => absurd hr (by simp), h.inbound⟩
      · rw [Option.some.injEq] at hl
        subst hl
        exact ⟨fun r hr => absurd hr (by simp), h.inbound⟩
      · exact absurd hl (by simp)

end Promising

namespace RemoteWorker

variable {codec : Codec} {p : Parameters} {files : Files}

/-! ### The calls return -/

/-- Bytes of a good answer are received, whatever they lead to. -/
theorem receive_returns {w : RemoteWorker} {l l' : Link} {data : Bytes} (hsound : codec.Sound)
    (hkept : Session.Kept p w) (hin : InStep codec w l) (hpromising : Promising codec w l)
    (hfiles : Obliging files) (hne : data ≠ [])
    (hfit : w.incomingBuffer.admits (.ok data) = true) (hdeliver : l.deliver data = some l') :
    ∃ w', w.receive codec p files (.ok data) = .ok (.ok w') := by
  have hstream := (InStep.deliver_spec hdeliver).1
  have hsome : inbound w l ≠ [] := by
    rw [inbound, hstream]
    exact List.append_ne_nil_of_right_ne_nil _ (List.append_ne_nil_of_left_ne_nil hne _)
  cases hin.phase with
  | quiet _ _ hnil => exact absurd hnil hsome
  | requesting _ _ _ hnil => exact absurd hnil hsome
  | handling _ _ _ hnil => exact absurd hnil hsome
  | responding _ _ _ hnil => exact absurd hnil hsome
  | lost _ hnil => exact absurd hnil hsome
  | answering response hexpects _ hframe =>
      have hgood := hpromising.inbound response hframe
      obtain ⟨log, pending, hlog⟩ := hkept.logged
      -- what is awaited is a job of the response's type
      have hpending := hlog.expects
      rw [hexpects] at hpending
      obtain ⟨a, rfl, htype⟩ := Option.map_eq_some_iff.mp hpending
      have hfavourable : Session.Favourable codec p w (.recv (.ok data) files) := by
        refine ⟨hfiles, data, l'.toController.stream, codec.serializeResponse response, response,
          a.job, rfl, hne, hfit, ?_, hgood.small, hsound.response response, hlog.awaits.symm,
          Response.answers hgood.succeeded htype.symm⟩
        rw [← hstream]
        exact hframe
      obtain ⟨w', hstep⟩ := Session.step_of_favourable hkept hfavourable
      exact ⟨w', (Session.step_recv hstep).2⟩

theorem runFrame_returns {w : RemoteWorker} {frame : Int} (hkept : Session.Kept p w)
    (hidle : w.isIdle = true) (hframe : 0 ≤ frame) (hfiles : Obliging files) :
    ∃ w', w.runFrame codec p files frame = .ok w' := by
  have hfavourable : Session.Favourable codec p w (.runFrame frame files) :=
    ⟨hidle, hframe, hfiles⟩
  obtain ⟨w', hstep⟩ := Session.step_of_favourable hkept hfavourable
  exact ⟨w', Session.returned_eq_some.mp hstep⟩

end RemoteWorker

namespace System

open RemoteWorker Controller

variable {codec : Codec} {p : Parameters} {hops : Nat → Nat} {s : System}

/-! ### A system in which everything goes well -/

/-- What is answered is good: the files are there, and the handlers do what they are asked to. -/
def Succeeding (codec : Codec) (s : System) : Input → Prop
  | .controller (.recv _ files) | .controller (.assign files) => Obliging files
  | .link addr (.handle env) => ∀ request, (s.links addr).process = .handling request →
      Good codec (Worker.handle env request)
  | _ => True

/-- The steps of a system that nobody disturbs and that succeeds. -/
def Favoured (codec : Codec) (p : Parameters) (s : System) (input : Input) : Prop :=
  Undisturbed p s input ∧ Succeeding codec s input

/-- The controller has returned 0, and these frames are finished. -/
structure EndsWell (jobs : List Int) (s : System) : Prop where
  returned : s.controller.pc = .returned 0
  finished : ∀ f ∈ jobs, f ∈ s.controller.finished

/-- **The controller does not give up.** -/
theorem going_of_move (hsound : codec.Sound) (hinv : Inv codec hops s) (hdue : Due s)
    (hkept : ∀ w ∈ s.controller.remoteWorkers, Session.Kept p w)
    (hframes : ∀ f ∈ s.controller.frames, 0 ≤ f)
    (hpromising : ∀ w ∈ s.controller.remoteWorkers, Promising codec w (s.links w.addr))
    (hrunning : s.controller.pc.stopped = false) {input : Controller.Input}
    {links : Nat → Link} {c : Controller} (hundisturbed : Undisturbed p s (.controller input))
    (hsucceeding : Succeeding codec s (.controller input))
    (htransport : s.transport input = some links) (hmove : Move codec p s.controller input c) :
    c.pc.stopped = false := by
  have houtside : ∀ {i : Nat}, i < toSend s.controller.pc →
      s.controller.remoteWorkers[i]? ≠ none := by
    intro i hi hnone
    obtain ⟨w, hw⟩ := hdue.exists_worker hi
    exact absurd (hnone.symm.trans hw) (by simp)
  cases hmove with
  | connect =>
      rw [show missingProxies p s.controller.remoteWorkers = [] from hundisturbed, connectProxies]
      rfl
  | pollFailed => exact absurd rfl hundisturbed.1
  | accept => exact absurd hundisturbed id
  | @receiveOutside i hpc _ hnone =>
      exact absurd hnone (houtside (by rw [hpc]; exact Nat.lt_succ_self i))
  | @receive r files i w hpc hin hw hfit =>
      cases r with
      | error e => exact absurd hundisturbed id
      | ok data =>
          have hmem := List.mem_of_getElem? hw
          simp only [transport, hpc, hw, Option.map_eq_some_iff] at htransport
          obtain ⟨l, hl, rfl⟩ := htransport
          obtain ⟨w', hok⟩ := receive_returns hsound (hkept w hmem) (hinv.inStep hrunning hmem)
            (hpromising w hmem) hsucceeding hundisturbed hfit hl
          rw [receiveFrom, hok]
          rfl
  | @sendOutside i hpc _ hnone =>
      exact absurd hnone (houtside (by rw [hpc]; exact Nat.lt_succ_self i))
  | @send r i w hpc hout hw hfit =>
      cases r with
      | error e => exact absurd hundisturbed id
      | ok n =>
          have htidy := hinv.objects.tidy w (List.mem_of_getElem? hw)
          obtain ⟨b, out, hb, -⟩ := OutgoingBuffer.send_spec htidy.outgoing hfit
          have hok : w.send (.ok n) = .ok ({ w with outgoingBuffer := b }, out) := by
            rw [RemoteWorker.send, hb]
          rw [sendTo, hok]
          rfl
  | @skipCheck i => cases i <;> rfl
  | @kill i hpc hfailed =>
      have hunharmed := hdue.unharmed (by rw [hpc]; rfl) (i + 1)
      exact absurd (hunharmed.symm.trans hfailed) (by simp)
  | @assign files frame rest index w hpc hcons hidle hw =>
      obtain ⟨hlt, hisIdle, -⟩ := List.findIdx?_eq_some_iff_getElem.mp hidle
      obtain ⟨-, rfl⟩ := List.getElem?_eq_some_iff.mp hw
      have hframe : 0 ≤ frame := hframes frame (by rw [hcons]; exact List.mem_cons_self ..)
      have hreturns : ∃ w', (s.controller.remoteWorkers[index]).runFrame codec p files frame
          = .ok w' := runFrame_returns (hkept _ (List.getElem_mem hlt)) hisIdle hframe hsucceeding
      obtain ⟨w', hok⟩ := hreturns
      rw [handOut, hok, after]
      simp only [hpc]
      rfl
  | _ => rfl

/-! ### What is bound to come

Three things are carried along: the system is getting on, the controller has not given up,
and the answers under way are good.  A step keeps them unless it interrupts the work or
ends it, and then it ends well: a controller that is over and has not given up has
returned 0.
-/

/-- What is true of a system in which everything goes well. -/
structure Thriving (codec : Codec) (p : Parameters) (hops : Nat → Nat) (sockFd : Int)
    (fuel : Nat) (s : System) : Prop where
  working : Working codec p hops sockFd fuel s
  going : s.controller.pc.stopped = false
  promising : Attached (Promising codec) hops s.links s.controller

theorem Thriving.of_polling {sockFd : Int} {fuel : Nat} (hsound : codec.Sound)
    (h : (machine codec p sockFd fuel hops).Reach (Fits codec p) s)
    (hpc : s.controller.pc = .polling) (hsome : s.controller.remoteWorkers ≠ [])
    (hpromising : ∀ w ∈ s.controller.remoteWorkers, Promising codec w (s.links w.addr)) :
    Thriving codec p hops sockFd fuel s := by
  have hrunning : s.controller.pc.stopped = false := by rw [hpc]; rfl
  exact ⟨.of_polling h hpc hsome, hrunning,
    ⟨((reach_inv hsound h).linked hrunning).fresh, hpromising⟩⟩

/-- After a step the controller has not given up, and the answers under way are good. -/
theorem Thriving.keeps {sockFd : Int} {fuel : Nat} {jobs : List Int} {t : System} {input : Input}
    (hsound : codec.Sound) (hget : p.frames.getAll fuel = .ok jobs) (hnonneg : ∀ f ∈ jobs, 0 ≤ f)
    (h : Thriving codec p hops sockFd fuel s) (hfavoured : Favoured codec p s input)
    (hstep : System.step codec p s input = some t) :
    t.controller.pc.stopped = false ∧ Attached (Promising codec) hops t.links t.controller := by
  obtain ⟨hundisturbed, hsucceeding⟩ := hfavoured
  have hinv := reach_inv hsound h.working.reach
  cases input with
  | controller input =>
      rw [System.step] at hstep
      split at hstep
      case h_2 => exact absurd hstep (by simp)
      rename_i links c htransport hc
      rw [Option.some.injEq] at hstep
      subst hstep
      have hmove := move_of_step hc
      have hall := reach_logged hget hnonneg h.working.reach
      have hresting := reach_resting (reach_controller h.working.reach)
      have hkept : ∀ w ∈ s.controller.remoteWorkers, Session.Kept p w := fun w hw =>
        ⟨hinv.objects.tidy w hw, (hall.workers w hw).1, (hall.workers w hw).2,
          Or.inr (expects_of_resting (hresting w hw))⟩
      have hgoing := going_of_move hsound hinv h.working.due hkept hall.frames h.promising.each
        h.going hundisturbed hsucceeding htransport hmove
      exact ⟨hgoing,
        attached_of_move Promising.keeps hinv h.promising h.going htransport hmove hgoing⟩
  | link addr input =>
      rw [System.step] at hstep
      split at hstep
      · rename_i haddr
        obtain ⟨l, hl, rfl⟩ := Option.map_eq_some_iff.mp hstep
        refine ⟨h.going, h.promising.update haddr ?_⟩
        rintro w hw rfl
        refine (h.promising.each w hw).link hsound (hinv.inStep h.going hw) hl ?_
        rintro env request rfl hprocess
        exact hsucceeding request hprocess
      · exact absurd hstep (by simp)

/-- A controller that is over and has not given up has returned 0. -/
theorem returned_of_over {pc : Pc} (hgoing : pc.stopped = false) (hover : pc.over = true) :
    pc = .returned 0 := by
  cases pc with
  | returned code => simpa [Pc.stopped] using hgoing
  | exited why => simp [Pc.stopped] at hgoing
  | _ => simp [Pc.over] at hover

/-- **A step that succeeds keeps it, interrupts the work or ends it well.** -/
theorem Thriving.step {sockFd : Int} {fuel : Nat} {jobs : List Int} {t : System} {input : Input}
    (hsound : codec.Sound) (hget : p.frames.getAll fuel = .ok jobs) (hnonneg : ∀ f ∈ jobs, 0 ≤ f)
    (h : Thriving codec p hops sockFd fuel s)
    (hfavoured : Favoured codec p s input) (hstep : System.step codec p s input = some t) :
    (EndsWell jobs t ∨ Interrupted codec p t) ∨
      (Thriving codec p hops sockFd fuel t ∧ rank p t < rank p s) := by
  obtain ⟨hgoing, hpromising⟩ := h.keeps hsound hget hnonneg hfavoured hstep
  rcases h.working.step hsound hget hnonneg hfavoured.1 hstep with
    (hover | hinterrupted) | ⟨hworking, hlower⟩
  · have hreturned := returned_of_over hgoing hover
    have hreach := reach_controller (.step h.working.reach.any trivial hstep)
    exact Or.inl (Or.inl
      ⟨hreturned, Controller.all_finished hget hnonneg hreach hreturned⟩)
  · exact Or.inl (Or.inr hinterrupted)
  · exact Or.inr ⟨⟨hworking, hgoing, hpromising⟩, hlower⟩

/-- It is not over before its end. -/
theorem Thriving.not_settled {sockFd : Int} {fuel : Nat} {jobs : List Int}
    (hget : p.frames.getAll fuel = .ok jobs) (hnonneg : ∀ f ∈ jobs, 0 ≤ f)
    (h : Thriving codec p hops sockFd fuel s)
    (hgoing : ¬ (EndsWell jobs s ∨ Interrupted codec p s)) : ¬ Settled codec p s := by
  rintro (hover | hinterrupted)
  · have hreturned := returned_of_over h.going hover
    have hreach := reach_controller h.working.reach
    exact hgoing (Or.inl ⟨hreturned, Controller.all_finished hget hnonneg hreach hreturned⟩)
  · exact hgoing (Or.inr hinterrupted)

/-! ### There is a step that succeeds -/

/-- Everything a request can ask for can be done. -/
def helpfulEnv : WorkerEnv := { Pair.bareEnv with files := Session.allFiles }

theorem handle_helpfulEnv {request : Request} (h : request.Local) :
    Worker.handle helpfulEnv request = .plain request.requestType := by
  unfold Request.Local at h
  unfold Worker.handle
  cases htype : request.requestType with
  | welcome => rfl
  | copyIn =>
      simp only [htype] at h
      simp only [Worker.handleCopyIn, h, Response.plain]
      rfl
  | execute =>
      simp only [htype] at h
      simp only [Worker.handleExecute, h, Response.plain]
      rfl
  | copyOut =>
      simp only [htype] at h
      simp only [Worker.handleCopyOut, h, Response.plain]
      rfl

theorem good_plain (hbrief : codec.Brief) (type : RequestType) : Good codec (.plain type) :=
  ⟨by cases type <;> rfl, hbrief type⟩

/-- A request that is handled can be handled with success. -/
theorem exists_handle {t : System} {addr : Nat} {env : WorkerEnv}
    (h : step codec p s (.link addr (.handle env)) = some t) (env' : WorkerEnv) :
    ∃ t', step codec p s (.link addr (.handle env')) = some t' := by
  rw [step] at h
  split at h
  · rename_i haddr
    obtain ⟨l, hl, -⟩ := Option.map_eq_some_iff.mp h
    rw [Link.step] at hl
    split at hl
    · rename_i request hprocess
      rw [step, if_pos haddr, Link.step, hprocess]
      exact ⟨_, rfl⟩
    · exact absurd hl (by simp)
  · exact absurd h (by simp)

/-- What `recv` is answered with, it can be answered with whatever the files hold. -/
theorem exists_recv {t : System} {r : Except Errno Bytes} {files : Files}
    (h : step codec p s (.controller (.recv r files)) = some t) (files' : Files) :
    ∃ t', step codec p s (.controller (.recv r files')) = some t' := by
  rw [step] at h
  split at h
  case h_2 => exact absurd h (by simp)
  rename_i links c htransport hc
  cases move_of_step hc with
  | receive hpc hin hw hfit =>
      have htransport' : s.transport (.recv r files') = some links := by
        simp only [transport, hpc] at htransport ⊢
        exact htransport
      rw [step, htransport']
      simp [Controller.step, hpc, hin, hw, hfit]

theorem exists_assign {t : System} {files : Files}
    (h : step codec p s (.controller (.assign files)) = some t) (files' : Files) :
    ∃ t', step codec p s (.controller (.assign files')) = some t' := by
  rw [step] at h
  split at h
  case h_2 => exact absurd h (by simp)
  rename_i links c htransport hc
  cases move_of_step hc with
  | assign hpc hframes hidle hw =>
      rw [step, transport_eq (by simp) (by simp)]
      simp [Controller.step, hpc, hframes, hidle, hw]

/-- **Where there is a step that nobody disturbs, there is one that succeeds.** -/
theorem exists_favoured (hbrief : codec.Brief) {t : System} {input : Input}
    (hlocal : ∀ addr request, (s.links addr).process = .handling request → request.Local)
    (hundisturbed : Undisturbed p s input) (hstep : step codec p s input = some t) :
    ∃ input t, Favoured codec p s input ∧ step codec p s input = some t := by
  cases input with
  | link addr input =>
      cases input with
      | handle env =>
          obtain ⟨t', hstep'⟩ := exists_handle hstep helpfulEnv
          refine ⟨.link addr (.handle helpfulEnv), t', ⟨hundisturbed, ?_⟩, hstep'⟩
          intro request hprocess
          rw [handle_helpfulEnv (hlocal addr request hprocess)]
          exact good_plain hbrief _
      | _ => exact ⟨_, t, ⟨hundisturbed, trivial⟩, hstep⟩
  | controller input =>
      cases input with
      | recv r files =>
          obtain ⟨t', hstep'⟩ := exists_recv hstep Session.allFiles
          refine ⟨.controller (.recv r Session.allFiles), t',
            ⟨?_, Session.obliging_allFiles⟩, hstep'⟩
          cases r with
          | ok data => exact hundisturbed
          | error e => exact absurd hundisturbed id
      | assign files =>
          obtain ⟨t', hstep'⟩ := exists_assign hstep Session.allFiles
          exact ⟨.controller (.assign Session.allFiles), t',
            ⟨trivial, Session.obliging_allFiles⟩, hstep'⟩
      | _ => exact ⟨_, t, ⟨hundisturbed, trivial⟩, hstep⟩

theorem Thriving.exists_step {sockFd : Int} {fuel : Nat} (hsound : codec.Sound)
    (hbrief : codec.Brief) (hp : p.Checked) (h : Thriving codec p hops sockFd fuel s)
    (hgoing : ¬ Settled codec p s) :
    ∃ input t, Favoured codec p s input ∧ System.step codec p s input = some t := by
  have hlocal : ∀ addr request, (s.links addr).process = .handling request → request.Local := by
    intro addr request hprocess
    obtain ⟨pending, hfed⟩ := (reach_supplied hsound hp h.working.reach).every addr
    exact hfed.handling request hprocess
  obtain ⟨input, t, hundisturbed, hstep⟩ := exists_undisturbed hsound h.working.reach
    h.working.due h.working.onCourse h.working.workers hgoing
  exact exists_favoured hbrief hlocal hundisturbed hstep

theorem inevitably_endsWell {sockFd : Int} {fuel : Nat} {jobs : List Int} (hsound : codec.Sound)
    (hbrief : codec.Brief) (hp : p.Checked) (hget : p.frames.getAll fuel = .ok jobs)
    (hnonneg : ∀ f ∈ jobs, 0 ≤ f)
    (h : Thriving codec p hops sockFd fuel s) :
    (machine codec p sockFd fuel hops).Inevitably (Favoured codec p)
      (fun t => EndsWell jobs t ∨ Interrupted codec p t) s := by
  refine Machine.Inevitably.of_rank (rank p) (Q := Thriving codec p hops sockFd fuel) ?_ ?_ h
  · intro t ht hgoing
    exact ht.exists_step hsound hbrief hp (ht.not_settled hget hnonneg hgoing)
  · intro t input u ht _ hfavoured hstep
    exact ht.step hsound hget hnonneg hfavoured hstep

/-- As long as the work is not settled, the controller has not given up. -/
theorem Thriving.going_of_run {sockFd : Int} {fuel : Nat} {jobs : List Int}
    (hsound : codec.Sound) (hget : p.frames.getAll fuel = .ok jobs) (hnonneg : ∀ f ∈ jobs, 0 ≤ f)
    (h : Thriving codec p hops sockFd fuel s) {t : System}
    (hrun : (machine codec p sockFd fuel hops).Run
      (fun u input => ¬ Settled codec p u ∧ Favoured codec p u input) s t) :
    t.controller.pc.stopped = false := by
  refine (hrun.invariant (P := fun u => u.controller.pc.stopped = false ∧
    (¬ Settled codec p u → Thriving codec p hops sockFd fuel u)) ?_ ⟨h.going, fun _ => h⟩).1
  rintro u input v ⟨-, hthriving⟩ ⟨hgoing, hfavoured⟩ hstep
  have hu := hthriving hgoing
  refine ⟨(hu.keeps hsound hget hnonneg hfavoured hstep).1, fun hgoing' => ?_⟩
  rcases hu.step hsound hget hnonneg hfavoured hstep with hend | ⟨hv, -⟩
  · refine absurd ?_ hgoing'
    exact hend.imp_left fun hwell => by rw [hwell.returned]; rfl
  · exact hv

end System

/--
**Work that goes well ends well.**  As long as nobody disturbs the system, the files can be
read and written and each worker does what it is asked to: whichever steps are taken, they
do not come to an end and do not go on for ever without the controller having returned 0
with every frame of the range finished, unless the work was interrupted on the way: a
program at the other end of a connection has ended, a message is too large, or there is
work left and the controller has to connect to a proxy first.  And if the controller is
over without an interruption, then it has returned 0 and every frame is finished.
-/
theorem work_ends_well (codec : Codec) (hsound : codec.Sound) (hbrief : codec.Brief)
    (p : Parameters) (hp : p.Checked) (sockFd : Int) (fuel : Nat) (hops : Nat → Nat)
    (jobs : List Int) (hget : p.frames.getAll fuel = .ok jobs)
    (hnonneg : ∀ f ∈ jobs, 0 ≤ f) (s : System)
    (h : (System.machine codec p sockFd fuel hops).Reach (System.Fits codec p) s)
    (hpc : s.controller.pc = .polling) (hsome : s.controller.remoteWorkers ≠ [])
    (hpromising : ∀ w ∈ s.controller.remoteWorkers, Promising codec w (s.links w.addr)) :
    (∀ t, (System.machine codec p sockFd fuel hops).Run (System.Favoured codec p) s t →
      (∀ input u, System.Favoured codec p t input → System.step codec p t input ≠ some u) →
      ∃ u, (System.machine codec p sockFd fuel hops).Run (System.Favoured codec p) s u ∧
        (System.machine codec p sockFd fuel hops).Run (System.Favoured codec p) u t ∧
        (u.EndsWell jobs ∨ u.Interrupted codec p)) ∧
    (∀ run : Nat → System, run 0 = s →
      (∀ n, ∃ input, System.Favoured codec p (run n) input ∧
        System.step codec p (run n) input = some (run (n + 1))) →
      ∃ n, (run n).EndsWell jobs ∨ (run n).Interrupted codec p) ∧
    ∀ t, (System.machine codec p sockFd fuel hops).Run
        (fun u input => ¬ u.Settled codec p ∧ System.Favoured codec p u input) s t →
      t.controller.pc.over = true → t.EndsWell jobs := by
  have hthriving := System.Thriving.of_polling hsound h hpc hsome hpromising
  have hinevitable := System.inevitably_endsWell hsound hbrief hp hget hnonneg hthriving
  refine ⟨fun t hrun hstuck => hinevitable.of_stuck hrun hstuck,
    fun run hstart hrun => hinevitable.of_forever run hstart hrun, ?_⟩
  intro t hrun hover
  have hgoing := hthriving.going_of_run hsound hget hnonneg hrun
  have hreturned := System.returned_of_over hgoing hover
  have hreach : (System.machine codec p sockFd fuel hops).Reach Machine.Any t :=
    h.any.trans (hrun.mono fun _ _ _ => trivial)
  exact ⟨hreturned, Controller.all_finished hget hnonneg
    (System.reach_controller hreach) hreturned⟩

/-- The worker that has been welcomed halfway has a good answer coming. -/
theorem System.promising_welcomedHalf :
    Promising drpCodec welcomedHalf (halfWelcomed.links welcomedHalf.addr) := by
  have hreceiving : (halfWelcomed.links welcomedHalf.addr).process = .receiving := by
    decide +kernel
  refine ⟨fun r hr => absurd (hreceiving.symm.trans hr) (by simp), fun r hr => ?_⟩
  have hinbound : inbound welcomedHalf (halfWelcomed.links welcomedHalf.addr)
      = frame (answer .clean RemoteWorker.welcomeRequest) := by decide +kernel
  have hsame := congrArg drpCodec.parseResponse (frame_inj (hr.symm.trans hinbound))
  rw [answer, drpCodec_sound.response, drpCodec_sound.response, Option.some.injEq] at hsame
  rw [hsame]
  exact ⟨by decide +kernel, by decide +kernel⟩

/-- It is the only one. -/
theorem work_ends_well_halfWelcomed :
    (∀ t, (System.machine drpCodec Controller.oneFrame 3 5 fun _ => 0).Run
        (System.Favoured drpCodec Controller.oneFrame) System.halfWelcomed t →
      (∀ input u, System.Favoured drpCodec Controller.oneFrame t input →
        System.step drpCodec Controller.oneFrame t input ≠ some u) →
      ∃ u, (System.machine drpCodec Controller.oneFrame 3 5 fun _ => 0).Run
          (System.Favoured drpCodec Controller.oneFrame) System.halfWelcomed u ∧
        (System.machine drpCodec Controller.oneFrame 3 5 fun _ => 0).Run
          (System.Favoured drpCodec Controller.oneFrame) u t ∧
        (u.EndsWell [1] ∨ u.Interrupted drpCodec Controller.oneFrame)) ∧
    (∀ run : Nat → System, run 0 = System.halfWelcomed →
      (∀ n, ∃ input, System.Favoured drpCodec Controller.oneFrame (run n) input ∧
        System.step drpCodec Controller.oneFrame (run n) input = some (run (n + 1))) →
      ∃ n, (run n).EndsWell [1] ∨ (run n).Interrupted drpCodec Controller.oneFrame) ∧
    ∀ t, (System.machine drpCodec Controller.oneFrame 3 5 fun _ => 0).Run
        (fun u input => ¬ u.Settled drpCodec Controller.oneFrame ∧
          System.Favoured drpCodec Controller.oneFrame u input) System.halfWelcomed t →
      t.controller.pc.over = true → t.EndsWell [1] := by
  have honly : System.halfWelcomed.controller.remoteWorkers = [System.welcomedHalf] := by
    decide +kernel
  refine work_ends_well drpCodec drpCodec_sound drpCodec_brief Controller.oneFrame
    ⟨fun _ hc => absurd hc List.not_mem_nil, fun _ hc => absurd hc List.not_mem_nil, by decide⟩
    3 5 (fun _ => 0) [1]
    (by decide +kernel) (by decide) System.halfWelcomed System.reach_halfWelcomed
    (by decide +kernel) (by decide +kernel) ?_
  intro w hw
  rw [honly, List.mem_singleton] at hw
  rw [hw]
  exact System.promising_welcomedHalf

end Distray
