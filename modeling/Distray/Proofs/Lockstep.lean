/-
The two ends of a connection stay in lockstep.

Where an exchange is, the queues and the worker process say.  Only two
byte strings matter for it: `outbound`, everything between the serialized request and
the worker, and `inbound`, everything between the worker and the parser of responses.
Sending, receiving and forwarding move bytes along inside these two and change neither,
so the phases of an exchange are stated about them, and the chunking never appears.

At most one exchange is under way.  That is not because the protocol says so, but because
`dispatch` asks only when it expects nothing, and expects an answer when it has asked.
-/
import Distray.Pair
import Distray.DrpCodec
import Distray.Proofs.Settled

namespace Distray

/-! ### The phases of an exchange

An exchange begins when a request is put into the buffer and ends when the response has been
decoded.  In between, exactly one of the two programs has something to do, and the bytes
under way are one frame; which frame it is, is fixed by the phase.
-/

/-- The status in an execute response is the one of the last execution. -/
def Reports (execution : Option Execution) (response : Response) : Prop :=
  response.requestType = .execute →
    ∃ x, execution = some x ∧ response.executeResponse.status = x.status

/-- Where an exchange is. -/
inductive Phase (codec : Codec) (expects : Option RequestType) (outbound inbound : Bytes)
    (process : Process) (execution : Option Execution) : Prop
  | quiet (hexpects : expects = none) (hout : outbound = []) (hin : inbound = [])
      (hprocess : process.waiting = true)
  | requesting (request : Request) (hexpects : expects = some request.requestType)
      (hout : outbound = frame (codec.serializeRequest request)) (hin : inbound = [])
      (hprocess : process.waiting = true)
      (hfit : (codec.serializeRequest request).length + 4 < 2 ^ 32)
  | handling (request : Request) (hexpects : expects = some request.requestType)
      (hout : outbound = []) (hin : inbound = []) (hprocess : process = .handling request)
  | responding (response : Response) (hexpects : expects = some response.requestType)
      (hout : outbound = []) (hin : inbound = []) (hprocess : process = .sending response)
      (hfit : (codec.serializeResponse response).length + 4 < 2 ^ 32)
      (hreports : Reports execution response)
  | answering (response : Response) (hexpects : expects = some response.requestType)
      (hout : outbound = []) (hin : inbound = frame (codec.serializeResponse response))
      (hprocess : process.waiting = true)
      (hfit : (codec.serializeResponse response).length + 4 < 2 ^ 32)
      (hreports : Reports execution response)
  /-- The worker has gone with the request. -/
  | lost (hexpects : expects ≠ none) (hin : inbound = [])
      (hprocess : ∃ code, process = .returned code)

/-- What there is between the serialized request and the worker. -/
def outbound (w : RemoteWorker) (l : Link) : Bytes :=
  l.toWorker.stream ++ w.outgoingBuffer.unsent

/-- What there is between the worker and the parser of responses. -/
def inbound (w : RemoteWorker) (l : Link) : Bytes :=
  w.incomingBuffer.taken ++ l.toController.stream

/-- A remote worker in step with what is at the other end. -/
structure InStep (codec : Codec) (w : RemoteWorker) (l : Link) : Prop where
  tidy : w.Tidy
  orderly : w.Orderly
  balanced : w.requests.length = w.responses.length + w.state.expects.toList.length
  phase : Phase codec w.state.expects (outbound w l) (inbound w l) l.process l.execution

/-- No bytes are under way, and the worker is not busy. -/
structure Link.Quiet (l : Link) : Prop where
  toWorker : l.toWorker.stream = []
  toController : l.toController.stream = []
  process : l.process.waiting = true

/-- A worker that is given a frame has nothing under way, if it had nothing before. -/
theorem RemoteWorker.Ready.given {w : RemoteWorker} (h : w.Ready) (frame : Int) :
    (w.given frame).Ready := by
  refine ⟨rfl, h.unsent, h.taken, ⟨h.tidy.incoming, h.tidy.outgoing⟩, ?_, ?_⟩
  · intro e he
    rcases List.mem_cons.mp he with rfl | he
    · rfl
    · exact h.orderly e he
  · have hbalanced := h.balanced
    simp only [RemoteWorker.requests, RemoteWorker.responses] at hbalanced
    simp [RemoteWorker.requests, RemoteWorker.responses, RemoteWorker.given, hbalanced]

namespace InStep

variable {codec : Codec} {p : Parameters} {files : Files}

/-- A worker that `dispatch` has settled is in step with a quiet link. -/
theorem of_settled {w : RemoteWorker} {l : Link} (h : w.Settled codec) (hl : l.Quiet)
    (hfits : messagesFit codec w l = true) : InStep codec w l := by
  obtain ⟨hto, hfrom, hprocess⟩ := hl
  rcases h with h | ⟨request, h⟩
  · refine ⟨h.tidy, h.orderly, by rw [h.expects]; exact h.balanced, ?_⟩
    exact .quiet h.expects (by rw [outbound, hto, h.unsent]; rfl)
      (by rw [inbound, h.taken, hfrom]; rfl) hprocess
  · obtain ⟨b, hb⟩ := h.buffer
    have hfit : (codec.serializeRequest request).length + 4 < 2 ^ 32 := by
      simp only [messagesFit, hb, OutgoingBuffer.setMessage, List.length_append,
        Octets.length_little, Bool.and_eq_true, decide_eq_true_eq] at hfits
      omega
    refine ⟨h.tidy, h.orderly, by rw [h.expects]; exact h.balanced, ?_⟩
    refine .requesting request h.expects ?_ (by rw [inbound, h.taken, hfrom]; rfl) hprocess hfit
    rw [outbound, hto, hb, OutgoingBuffer.unsent_setMessage b _ hfit]
    rfl

theorem ready {w : RemoteWorker} {l : Link} (h : InStep codec w l)
    (hexpects : w.state.expects = none) : w.Ready ∧ l.Quiet := by
  have hbalanced := h.balanced
  rw [hexpects] at hbalanced
  cases h.phase with
  | quiet _ hout hin hprocess =>
      obtain ⟨hto, hunsent⟩ := List.append_eq_nil_iff.mp hout
      obtain ⟨htaken, hfrom⟩ := List.append_eq_nil_iff.mp hin
      exact ⟨⟨hexpects, hunsent, htaken, h.tidy, h.orderly, hbalanced⟩, hto, hfrom, hprocess⟩
  | requesting _ hs => exact absurd (hs.symm.trans hexpects) (by simp)
  | handling _ hs => exact absurd (hs.symm.trans hexpects) (by simp)
  | responding _ hs => exact absurd (hs.symm.trans hexpects) (by simp)
  | answering _ hs => exact absurd (hs.symm.trans hexpects) (by simp)
  | lost hs => exact absurd hexpects hs

/-! ### What the steps keep -/

/-- A worker that has just been made is in step with one that has just connected. -/
theorem make (addr : Nat) (fd : Int) (hops : Nat) :
    InStep codec (RemoteWorker.make addr fd) (Link.make hops) :=
  ⟨RemoteWorker.tidy_make addr fd, by simp [RemoteWorker.Orderly, RemoteWorker.make], rfl,
    .quiet rfl (by simp [outbound, Link.make, RemoteWorker.make])
      (by simp [inbound, Link.make, RemoteWorker.make]) rfl⟩

theorem send {w w' : RemoteWorker} {l : Link} {r : Except Errno Nat} {out : Bytes}
    (h : InStep codec w l) (hfit : w.outgoingBuffer.admits r = true)
    (hok : w.send r = .ok (w', out)) : InStep codec w' (l.post out) := by
  have htidy := RemoteWorker.send_tidy h.tidy hfit hok
  obtain ⟨b, hb, rfl⟩ := RemoteWorker.send_eq_ok hok
  have hout : outbound { w with outgoingBuffer := b } (l.post out) = outbound w l := by
    rw [outbound, outbound, (OutgoingBuffer.send_eq_ok h.tidy.outgoing hfit hb).2]
    simp [Link.post]
  refine ⟨htidy, h.orderly, h.balanced, ?_⟩
  rw [hout]
  exact h.phase

theorem deliver_spec {l l' : Link} {data : Bytes} (h : l.deliver data = some l') :
    l.toController.stream = data ++ l'.toController.stream ∧ l'.toWorker = l.toWorker ∧
      l'.process = l.process ∧ l'.execution = l.execution := by
  unfold Link.deliver at h
  split at h
  · rename_i hnil
    rw [Option.some.injEq] at h
    subst h
    exact ⟨by rw [hnil]; rfl, rfl, rfl, rfl⟩
  · obtain ⟨c, hc, rfl⟩ := Option.map_eq_some_iff.mp h
    exact ⟨Chain.stream_take hc, rfl, rfl, rfl⟩

/-- A message that is complete is the response, and there is nothing behind it. -/
theorem complete {w : RemoteWorker} {l l' : Link} {data : Bytes} {b : IncomingBuffer}
    (h : InStep codec w l) (hfit : w.incomingBuffer.admits (.ok data) = true)
    (hdeliver : l.deliver data = some l')
    (hb : w.incomingBuffer.receive (.ok data) = .ok (.ok b)) (hdone : b.needReceive = false) :
    ({ w with incomingBuffer := b } : RemoteWorker).Arrived ∧ l'.Quiet ∧
      ∃ response, w.state.expects = some response.requestType ∧
        b.getMessage = codec.serializeResponse response ∧ Reports l'.execution response := by
  obtain ⟨hstream, hto, hprocess, hexecution⟩ := deliver_spec hdeliver
  have hwf := h.tidy.incoming.receive hfit hb
  obtain ⟨hframe, hmax⟩ := IncomingBuffer.taken_eq_frame hwf hdone
  have htaken := (IncomingBuffer.receive_extends h.tidy.incoming hfit hb).2
  have hin : inbound w l = frame b.getMessage ++ l'.toController.stream := by
    rw [inbound, hstream, ← List.append_assoc, ← htaken, hframe]
  have hsome : inbound w l ≠ [] := by
    rw [hin]
    exact List.append_ne_nil_of_left_ne_nil (lengthHeader.frame_ne_nil _) _
  have hbalanced := h.balanced
  cases h.phase with
  | quiet _ _ hnil => exact absurd hnil hsome
  | requesting _ _ _ hnil => exact absurd hnil hsome
  | handling _ _ _ hnil => exact absurd hnil hsome
  | responding _ _ _ hnil => exact absurd hnil hsome
  | lost _ hnil => exact absurd hnil hsome
  | answering response hexpects hout hanswer hwaiting hfits hreports =>
      rw [hanswer, ← List.append_nil (frame _)] at hin
      simp only [MAX_INCOMING_FILE_SIZE] at hmax
      obtain ⟨hmessage, hrest⟩ := Header.frame_unique
        (by simp only [lengthHeader_bound]; omega) (by simp only [lengthHeader_bound]; omega) hin
      obtain ⟨hqueue, hunsent⟩ := List.append_eq_nil_iff.mp hout
      rw [hexpects] at hbalanced
      refine ⟨⟨by rw [hexpects]; simp, hunsent, hdone, ⟨hwf, h.tidy.outgoing⟩, h.orderly,
        hbalanced⟩, ⟨by rw [hto]; exact hqueue, hrest.symm, by rw [hprocess]; exact hwaiting⟩,
        response, hexpects, hmessage.symm, by rw [hexecution]; exact hreports⟩

/-- **Receiving keeps the two ends in step.** -/
theorem receive {w w' : RemoteWorker} {l l' : Link} {data : Bytes} (h : InStep codec w l)
    (hfit : w.incomingBuffer.admits (.ok data) = true) (hdeliver : l.deliver data = some l')
    (hok : w.receive codec p files (.ok data) = .ok (.ok w'))
    (hfits : messagesFit codec w' l' = true) : InStep codec w' l' := by
  obtain ⟨hstream, hto, hprocess, hexecution⟩ := deliver_spec hdeliver
  obtain ⟨b, hb, ⟨-, rfl⟩ | ⟨hdone, hdispatch⟩⟩ := RemoteWorker.receive_eq_ok hok
  · have htaken := (IncomingBuffer.receive_extends h.tidy.incoming hfit hb).2
    have hin : inbound { w with incomingBuffer := b } l' = inbound w l := by
      rw [inbound, inbound, hstream, htaken, List.append_assoc]
    have hout : outbound { w with incomingBuffer := b } l' = outbound w l := by
      rw [outbound, outbound, hto]
    refine ⟨⟨h.tidy.incoming.receive hfit hb, h.tidy.outgoing⟩, h.orderly, h.balanced, ?_⟩
    rw [hin, hout, hprocess, hexecution]
    exact h.phase
  · obtain ⟨harrived, hquiet, -⟩ := h.complete hfit hdeliver hb hdone
    exact of_settled (harrived.dispatch hdispatch) hquiet hfits

/-- If it ends the program, that is not because they were out of step. -/
theorem receive_exit {w : RemoteWorker} {l l' : Link} {data : Bytes} {why : Exit}
    (hsound : codec.Sound) (h : InStep codec w l)
    (hfit : w.incomingBuffer.admits (.ok data) = true) (hdeliver : l.deliver data = some l')
    (hexit : w.receive codec p files (.ok data) = .exit why) : why.outOfStep = false := by
  rcases RemoteWorker.receive_exit hexit with hb | ⟨b, hb, hdone, hdispatch⟩
  · exact IncomingBuffer.receive_exit hb
  · obtain ⟨-, -, response, hexpects, hmessage, -⟩ := h.complete hfit hdeliver hb hdone
    have hparse : codec.parseResponse b.getMessage = some response := by
      rw [hmessage, hsound.response]
    exact RemoteWorker.dispatch_exit_of_parse (w := { w with incomingBuffer := b }) hexpects
      hparse hdispatch

theorem runFrame {w w' : RemoteWorker} {l : Link} {frame : Int} (h : InStep codec w l)
    (hok : w.runFrame codec p files frame = .ok w') (hfits : messagesFit codec w' l = true) :
    InStep codec w' l := by
  obtain ⟨hidle, hdispatch⟩ := RemoteWorker.runFrame_eq_ok hok
  have hs : w.state = .idle := by simpa [RemoteWorker.isIdle] using hidle
  obtain ⟨hready, hquiet⟩ := h.ready (by rw [hs]; rfl)
  exact of_settled ((hready.given frame).dispatch hdispatch) hquiet hfits

theorem runFrame_exit {w : RemoteWorker} {frame : Int} {why : Exit} (hidle : w.isIdle = true)
    (hexit : w.runFrame codec p files frame = .exit why) : why.outOfStep = false := by
  rw [RemoteWorker.runFrame, if_pos hidle] at hexit
  exact RemoteWorker.dispatch_exit_of_immediate rfl hexit

theorem start {w w' : RemoteWorker} {l : Link} (h : InStep codec w l)
    (hs : w.state = .sendWelcomeRequest) (hok : w.start codec p files = .ok w')
    (hfits : messagesFit codec w' l = true) : InStep codec w' l := by
  obtain ⟨hready, hquiet⟩ := h.ready (by rw [hs]; rfl)
  exact of_settled (hready.dispatch hok) hquiet hfits

theorem start_exit {w : RemoteWorker} {why : Exit} (hs : w.state = .sendWelcomeRequest)
    (hexit : w.start codec p files = .exit why) : why.outOfStep = false :=
  RemoteWorker.dispatch_exit_of_immediate (by rw [hs]; rfl) hexit

/-! ### What the other end keeps

The worker and the queues do not know which phase it is.  They take what has arrived, and
what they do with it leads from each phase to the next, or to a worker that has ended.
-/

theorem of_phase {w : RemoteWorker} {l l' : Link} (h : InStep codec w l)
    (hphase : Phase codec w.state.expects (outbound w l') (inbound w l') l'.process l'.execution) :
    InStep codec w l' :=
  ⟨h.tidy, h.orderly, h.balanced, hphase⟩

/-- A worker that has received a whole message is busy with it. -/
theorem received {w : RemoteWorker} {l : Link} {q left : Bytes} {rest : Chain UInt8}
    {process : Process} (hsound : codec.Sound) (h : InStep codec w l)
    (hreceiving : l.process = .receiving) (hqueue : l.toWorker = q :: rest)
    (hreceived : Process.received codec q = some (process, left)) :
    InStep codec w { l with process := process, toWorker := left :: rest } := by
  obtain ⟨data, htake, hprocess⟩ := Process.received_cases hreceived
  -- the message is at the front of everything that goes out
  have hfront : lengthHeader.takeFrame (outbound w l)
      = some (data, outbound w { l with process := process, toWorker := left :: rest }) := by
    have hmore := Header.takeFrame_append htake (rest.flatten ++ w.outgoingBuffer.unsent)
    simpa [outbound, hqueue, Chain.stream] using hmore
  have hin : inbound w { l with process := process, toWorker := left :: rest } = inbound w l := rfl
  cases h.phase with
  | quiet _ hout => simp [hout] at hfront
  | handling _ _ hout => simp [hout] at hfront
  | responding _ _ hout => simp [hout] at hfront
  | answering _ _ hout => simp [hout] at hfront
  | lost _ _ hreturned =>
      obtain ⟨code, hcode⟩ := hreturned
      exact absurd (hreceiving.symm.trans hcode) (by simp)
  | requesting request hexpects hout hnil hwaiting hfit =>
      rw [hout, ← List.append_nil (frame _),
        Header.takeFrame_frame (by simp only [lengthHeader_bound]; omega), Option.some.injEq,
        Prod.mk.injEq] at hfront
      obtain ⟨hdata, hrest⟩ := hfront
      have hparse := hsound.request request
      rw [hdata] at hparse
      rcases hprocess with hclosed | ⟨hnone, -⟩ | ⟨request', hsome, hhandling⟩
      · exact h.of_phase (.lost (by rw [hexpects]; simp) (hin.trans hnil) ⟨0, hclosed⟩)
      · exact absurd (hparse.symm.trans hnone) (by simp)
      · rw [hparse, Option.some.injEq] at hsome
        exact h.of_phase (.handling request hexpects hrest.symm (hin.trans hnil)
          (by rw [hsome]; exact hhandling))

/-- A handler's response has the type that is expected. -/
theorem handled {w : RemoteWorker} {l : Link} {request : Request} (env : WorkerEnv)
    (h : InStep codec w l) (hprocess : l.process = .handling request)
    (hfit : (codec.serializeResponse (Worker.handle env request)).length + 4 < 2 ^ 32) :
    InStep codec w { l with
      process := .sending (Worker.handle env request)
      execution := (execution? env request).or l.execution } := by
  cases h.phase with
  | quiet _ _ _ hwaiting => simp [hprocess, Process.waiting] at hwaiting
  | requesting _ _ _ _ hwaiting => simp [hprocess, Process.waiting] at hwaiting
  | responding _ _ _ _ hsending => exact absurd (hprocess.symm.trans hsending) (by simp)
  | answering _ _ _ _ hwaiting => simp [hprocess, Process.waiting] at hwaiting
  | lost _ _ hreturned =>
      obtain ⟨code, hcode⟩ := hreturned
      exact absurd (hprocess.symm.trans hcode) (by simp)
  | handling request' hexpects hout hin hhandling =>
      rw [hprocess, Process.handling.injEq] at hhandling
      subst hhandling
      have htype := Worker.handle_requestType env request
      refine h.of_phase (.responding _ (by rw [htype]; exact hexpects) hout hin rfl hfit ?_)
      intro hexecute
      rw [htype] at hexecute
      obtain ⟨x, hx, hstatus⟩ := execution?_of_execute env hexecute
      exact ⟨x, by rw [hx]; rfl, hstatus⟩

/-- A response that is sent is all there is on its way back. -/
theorem answered {w : RemoteWorker} {l : Link} {response : Response} (h : InStep codec w l)
    (hprocess : l.process = .sending response) :
    InStep codec w { l with
      process := .receiving
      toController := l.toController.put (sendMessage (codec.serializeResponse response)) } := by
  cases h.phase with
  | quiet _ _ _ hwaiting => simp [hprocess, Process.waiting] at hwaiting
  | requesting _ _ _ _ hwaiting => simp [hprocess, Process.waiting] at hwaiting
  | handling _ _ _ _ hhandling => exact absurd (hprocess.symm.trans hhandling) (by simp)
  | answering _ _ _ _ hwaiting => simp [hprocess, Process.waiting] at hwaiting
  | lost _ _ hreturned =>
      obtain ⟨code, hcode⟩ := hreturned
      exact absurd (hprocess.symm.trans hcode) (by simp)
  | responding response' hexpects hout hin hsending hfit hreports =>
      rw [hprocess, Process.sending.injEq] at hsending
      subst hsending
      refine h.of_phase (.answering response hexpects hout ?_ rfl hfit hreports)
      obtain ⟨htaken, hqueue⟩ := List.append_eq_nil_iff.mp hin
      rw [inbound, htaken, Chain.stream_put, hqueue, sendMessage_eq hfit]
      rfl

theorem gone {w : RemoteWorker} {l : Link} (code : Int) (h : InStep codec w l)
    (hprocess : ∀ request, l.process ≠ .handling request) :
    InStep codec w { l with process := .returned code } := by
  cases h.phase with
  | quiet hexpects hout hin => exact h.of_phase (.quiet hexpects hout hin rfl)
  | requesting request hexpects hout hin _ hfit =>
      exact h.of_phase (.requesting request hexpects hout hin rfl hfit)
  | handling request _ _ _ hhandling => exact absurd hhandling (hprocess request)
  | responding _ hexpects _ hin =>
      exact h.of_phase (.lost (by rw [hexpects]; simp) hin ⟨code, rfl⟩)
  | answering response hexpects hout hin _ hfit hreports =>
      exact h.of_phase (.answering response hexpects hout hin rfl hfit hreports)
  | lost hexpects hin => exact h.of_phase (.lost hexpects hin ⟨code, rfl⟩)

/-- **The other end, and the queues in between, keep the two ends in step.** -/
theorem link {w : RemoteWorker} {l l' : Link} {input : Link.Input} (hsound : codec.Sound)
    (h : InStep codec w l) (hstep : l.step codec input = some l')
    (hfits : messagesFit codec w l' = true) : InStep codec w l' := by
  cases input with
  | forwardRequest k n =>
      rw [Link.step, Option.some.injEq] at hstep
      subst hstep
      refine h.of_phase ?_
      rw [outbound, Chain.stream_forward]
      exact h.phase
  | forwardResponse k n =>
      rw [Link.step, Option.some.injEq] at hstep
      subst hstep
      refine h.of_phase ?_
      rw [inbound, Chain.stream_forward]
      exact h.phase
  | receive =>
      rw [Link.step] at hstep
      split at hstep
      · rename_i q rest hprocess hqueue
        split at hstep
        · rename_i process left hreceived
          rw [Option.some.injEq] at hstep
          exact hstep ▸ h.received hsound hprocess hqueue hreceived
        · exact absurd hstep (by simp)
      · exact absurd hstep (by simp)
  | handle env =>
      rw [Link.step] at hstep
      split at hstep
      · rename_i request hprocess
        rw [Option.some.injEq] at hstep
        subst hstep
        refine h.handled env hprocess ?_
        simp only [messagesFit, Bool.and_eq_true, decide_eq_true_eq] at hfits
        exact hfits.2
      · exact absurd hstep (by simp)
  | send =>
      rw [Link.step] at hstep
      split at hstep
      · rename_i response hprocess
        rw [Option.some.injEq] at hstep
        exact hstep ▸ h.answered hprocess
      · exact absurd hstep (by simp)
  | fail code =>
      rw [Link.step] at hstep
      split at hstep
      · rename_i hprocess
        rw [Option.some.injEq] at hstep
        exact hstep ▸ h.gone code (fun request => by rw [hprocess]; simp)
      · rename_i response hprocess
        rw [Option.some.injEq] at hstep
        exact hstep ▸ h.gone code (fun request => by rw [hprocess]; simp)
      · exact absurd hstep (by simp)

end InStep

/-! ### Runs -/

namespace Pair

variable {codec : Codec} {p : Parameters}

/-- What holds of a pair in every state it reaches. -/
structure Inv (codec : Codec) (s : Pair) : Prop where
  inStep : InStep codec s.worker s.link
  exited : ∀ why, s.status = .exited why → why.outOfStep = false

theorem Inv.after {α : Type} {s : Pair} (h : InStep codec s.worker s.link) {x : Outcome α}
    {f : α → Pair} (hok : ∀ a, x = .ok a → Inv codec (f a))
    (hexit : ∀ why, x = .exit why → why.outOfStep = false) : Inv codec (s.after x f) := by
  cases x with
  | ok a => exact hok a rfl
  | exit why =>
      refine ⟨h, ?_⟩
      intro why' hwhy
      rw [Pair.after, Status.exited.injEq] at hwhy
      exact hwhy ▸ hexit why rfl
  | hang => exact ⟨h, fun why' hwhy => absurd hwhy (by simp [Pair.after])⟩
  | undefined => exact ⟨h, fun why' hwhy => absurd hwhy (by simp [Pair.after])⟩

/-- A state that is still running is fine if the two ends are in step. -/
theorem Inv.of_inStep {s : Pair} (hs : s.status = .running)
    (h : InStep codec s.worker s.link) : Inv codec s :=
  ⟨h, fun why hwhy => absurd (hs.symm.trans hwhy) (by simp)⟩

/-- **One step, of either end or in between.** -/
theorem Inv.step {s t : Pair} {input : Input} (hsound : codec.Sound) (h : Inv codec s)
    (hfits : Fits codec p s input) (hstep : Pair.step codec p s input = some t) :
    Inv codec t := by
  have hfit := hfits t hstep
  unfold Pair.step at hstep
  split at hstep
  case isFalse => exact absurd hstep (by simp)
  rename_i hrunning
  cases input with
  | start files =>
      simp only at hstep
      split at hstep
      · rename_i hs
        rw [Option.some.injEq] at hstep
        subst hstep
        refine Inv.after h.inStep ?_ fun why hwhy => InStep.start_exit hs hwhy
        intro w hw
        rw [hw] at hfit
        exact Inv.of_inStep hrunning (h.inStep.start hs hw hfit)
      · exact absurd hstep (by simp)
  | recv r files =>
      simp only at hstep
      split at hstep
      · rename_i hadmits
        obtain ⟨l, hl, rfl⟩ := Option.map_eq_some_iff.mp hstep
        cases r with
        | error e =>
            refine ⟨h.inStep, ?_⟩
            intro why hwhy
            exact absurd hwhy (by simp [RemoteWorker.receive, IncomingBuffer.receive, Pair.after])
        | ok data =>
            refine Inv.after h.inStep ?_ fun why hwhy =>
              h.inStep.receive_exit hsound hadmits hl hwhy
            intro res hres
            rw [hres] at hfit
            cases res with
            | ok w => exact Inv.of_inStep hrunning (h.inStep.receive hadmits hl hres hfit)
            | error e => exact ⟨h.inStep, fun why hwhy => absurd hwhy (by simp)⟩
      · exact absurd hstep (by simp)
  | send r =>
      simp only at hstep
      split at hstep
      · rename_i hadmits
        split at hstep
        · rename_i w out hok
          rw [Option.some.injEq] at hstep
          subst hstep
          exact Inv.of_inStep hrunning (h.inStep.send hadmits hok)
        · rw [Option.some.injEq] at hstep
          subst hstep
          exact ⟨h.inStep, fun why hwhy => absurd hwhy (by simp)⟩
      · exact absurd hstep (by simp)
  | runFrame frame files =>
      simp only at hstep
      split at hstep
      · rename_i hidle
        rw [Option.some.injEq] at hstep
        subst hstep
        refine Inv.after h.inStep ?_ fun why hwhy =>
          InStep.runFrame_exit hidle hwhy
        intro w hw
        rw [hw] at hfit
        exact Inv.of_inStep hrunning (h.inStep.runFrame hw hfit)
      · exact absurd hstep (by simp)
  | link input =>
      obtain ⟨l, hl, rfl⟩ := Option.map_eq_some_iff.mp hstep
      exact Inv.of_inStep hrunning (h.inStep.link hsound hl hfit)

theorem reach_inv (hsound : codec.Sound) {addr : Nat} {fd : Int} {hops : Nat} {s : Pair}
    (h : (machine codec p addr fd hops).Reach (Fits codec p) s) : Inv codec s := by
  refine Machine.Reach.invariant ?_ (fun s input t hs hfits hstep => hs.step hsound hfits hstep) h
  exact Inv.of_inStep rfl (InStep.make addr fd hops)

/-- In every phase, what there is of an exchange is in one place. -/
theorem outstanding_le {s : Pair} (h : InStep codec s.worker s.link) : s.outstanding ≤ 1 := by
  unfold outstanding
  have hnone : ∀ {a b : Bytes}, a ++ b = [] → b = [] ∧ a = [] := fun h =>
    (List.append_eq_nil_iff.mp h).symm
  cases h.phase with
  | quiet _ hout hin hprocess =>
      rw [if_pos (hnone hout), if_pos (hnone hin).symm, if_pos hprocess]
      omega
  | requesting _ _ _ hin hprocess =>
      rw [if_pos (hnone hin).symm, if_pos hprocess]
      split <;> omega
  | handling _ _ hout hin =>
      rw [if_pos (hnone hout), if_pos (hnone hin).symm]
      split <;> omega
  | responding _ _ hout hin =>
      rw [if_pos (hnone hout), if_pos (hnone hin).symm]
      split <;> omega
  | answering _ _ hout _ hprocess =>
      rw [if_pos (hnone hout), if_pos hprocess]
      split <;> omega
  | lost _ hin hreturned =>
      obtain ⟨code, hcode⟩ := hreturned
      have hprocess : s.link.process.waiting = true := by rw [hcode]; rfl
      rw [if_pos (hnone hin).symm, if_pos hprocess]
      split <;> omega

end Pair

/--
**Controller and worker stay in lockstep.**  Whatever order the two ends and the queues
between them take their steps in, and however the bytes are cut up: there is never
more than one message under way, and never more than one request without its response;
the controller's end never stops because `dispatch` found it idle, because a response
does not parse or because it has the wrong type; no unsent byte of a request is
discarded, and no response that has partly arrived.
-/
theorem controller_and_worker_in_lockstep (codec : Codec) (hsound : codec.Sound)
    (p : Parameters) (addr : Nat) (fd : Int) (hops : Nat) (s : Pair)
    (h : (Pair.machine codec p addr fd hops).Reach (Pair.Fits codec p) s) :
    s.outstanding ≤ 1 ∧
      s.worker.responses.length ≤ s.worker.requests.length ∧
      s.worker.requests.length ≤ s.worker.responses.length + 1 ∧
      (∀ why, s.status = .exited why → why.outOfStep = false) ∧
      ∀ e ∈ s.worker.trace, e.orderly = true := by
  obtain ⟨hinStep, hexited⟩ := Pair.reach_inv hsound h
  have hbalanced := hinStep.balanced
  have hone : s.worker.state.expects.toList.length ≤ 1 := by
    cases s.worker.state.expects <;> simp
  exact ⟨Pair.outstanding_le hinStep, by omega, by omega, hexited, hinStep.orderly⟩

/-! A frame is rendered, through a proxy, a few bytes at a time. -/

namespace Pair

def oneProgram : Parameters where
  frames := ⟨1, 1, 1⟩
  inCopies := []
  outCopies := []
  executable := bytes "render"

/-- Nothing can be read or written, and every program succeeds. -/
def bareEnv : WorkerEnv where
  hostname := none
  hardwareConcurrency := 8
  stat _ := .ENOENT
  files := ⟨fun _ => none, fun _ => none⟩
  fork := .waited (.exited 0)

/-- A request goes out and its response comes back. -/
def exchange (request : Request) : List Input :=
  let out := frame (drpCodec.serializeRequest request)
  let back := frame (drpCodec.serializeResponse (Worker.handle bareEnv request))
  [.send (.ok 3), .send (.ok (out.length - 3)), .link (.forwardRequest 0 out.length),
    .link .receive, .link (.handle bareEnv), .link .send,
    .link (.forwardResponse 0 back.length), .recv (.ok (back.take 4)) bareEnv.files,
    .recv (.ok (back.drop 4)) bareEnv.files]

/-- The pair when the worker is back in `IDLE`. -/
def oneRendered : Pair :=
  ((machine drpCodec oneProgram 0 4 1).exec (Fits drpCodec oneProgram)
    ⟨RemoteWorker.make 0 4, Link.make 1, .running⟩
    (.start bareEnv.files :: exchange RemoteWorker.welcomeRequest ++
      .runFrame 1 bareEnv.files :: exchange (RemoteWorker.executeRequest oneProgram 1))).getD
    ⟨RemoteWorker.make 0 4, Link.make 1, .running⟩

end Pair

theorem controller_and_worker_in_lockstep_rendered :
    Pair.oneRendered.outstanding ≤ 1 ∧
      Pair.oneRendered.worker.responses.length ≤ Pair.oneRendered.worker.requests.length ∧
      Pair.oneRendered.worker.requests.length ≤ Pair.oneRendered.worker.responses.length + 1 ∧
      (∀ why, Pair.oneRendered.status = .exited why → why.outOfStep = false) ∧
      ∀ e ∈ Pair.oneRendered.worker.trace, e.orderly = true :=
  controller_and_worker_in_lockstep drpCodec drpCodec_sound Pair.oneProgram 0 4 1 Pair.oneRendered
    (Machine.Run.of_replay (m := Pair.machine drpCodec Pair.oneProgram 0 4 1) (by decide +kernel))

end Distray
