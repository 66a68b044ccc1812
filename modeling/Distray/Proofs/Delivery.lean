/-
Every request is dealt with once, in order, and answered to the one who asked.

The two ends of a connection have separate pasts: the controller's end has the requests
it put into its buffer and the responses it decoded, and the worker's end has what is
on record.  Being in step says how many of each there are.  Here it is which: what is
under way is the very request, or the very response, by which the two pasts differ.

From that, how far the two can be apart follows at once: the worker has dealt with all the
requests but at most the last, and the controller's end has decoded all the responses but
at most the last, of which only one can be outstanding.
-/
import Distray.Record
import Distray.Proofs.Lockstep
import Distray.Proofs.Connected

namespace Distray

/-! ### What a conversation consists of

A call of `dispatch` hears a response, if one is expected, and asks for something, unless it
comes to `IDLE`.  Whatever turns it takes for that, its end is one of two: it was silent and
expects nothing, or it has asked and expects the answer.
-/

namespace RemoteWorker

variable {codec : Codec} {p : Parameters} {files : Files}

/-- The requests, without the files they were read from. -/
def asked (w : RemoteWorker) : List Request := w.requests.map Prod.fst

/--
What `dispatch` makes of a conversation: it says nothing more, or it adds one request,
which is then in the buffer.
-/
inductive Spoken (codec : Codec) (asked : List Request) (heard : List Response)
    (w : RemoteWorker) : Prop
  | silent (hexpects : w.state.expects = none) (hasked : w.asked = asked)
      (hheard : w.responses = heard)
  | asking (request : Request) (hexpects : w.state.expects = some request.requestType)
      (hasked : w.asked = asked ++ [request]) (hheard : w.responses = heard)
      (hbuffer : ∃ b : OutgoingBuffer,
        w.outgoingBuffer = b.setMessage (codec.serializeRequest request))
      (htaken : w.incomingBuffer.taken = [])

variable {asked : List Request} {heard : List Response}

theorem Spoken.of_eq {w w' : RemoteWorker} (hw : w.asked = asked) (hheard : w.responses = heard)
    (hexpects : w'.state.expects = none) (htrace : w'.trace = w.trace) :
    Spoken codec asked heard w' := by
  refine .silent hexpects ?_ ?_
  · rw [← hw, RemoteWorker.asked, RemoteWorker.asked, requests, requests, htrace]
  · rw [← hheard, responses, responses, htrace]

theorem Spoken.sendRequest {w : RemoteWorker} (hw : w.asked = asked)
    (hheard : w.responses = heard) (request : Request) (source : Option (Bytes × Bytes))
    {next : State} (hnext : next.expects = some request.requestType) :
    Spoken codec asked heard (w.sendRequest codec request source next) := by
  refine .asking request hnext ?_ ?_ ⟨w.outgoingBuffer, rfl⟩ (IncomingBuffer.taken_reset _)
  · rw [← hw]
    simp [RemoteWorker.sendRequest, RemoteWorker.asked, requests]
  · rw [← hheard]
    simp [RemoteWorker.sendRequest, responses]

/-- **A turn taken at once adds a request, or nothing.** -/
theorem Turn.spoken {w w' : RemoteWorker} (hturn : Turn codec p files w w')
    (hexpects : w.state.expects = none) (hw : w.asked = asked) (hheard : w.responses = heard) :
    Spoken codec asked heard w' := by
  cases hturn with
  | sendWelcome hs => exact .sendRequest hw hheard _ _ rfl
  | inSent hpass => cases hpass <;> exact .sendRequest hw hheard _ _ rfl
  | inSkipped hpass hs => exact .of_eq hw hheard hexpects rfl
  | inFinished hpass hs => cases hpass <;> exact .of_eq hw hheard rfl rfl
  | sendExecute hs => exact .sendRequest hw hheard _ _ rfl
  | outSent hs => exact .sendRequest hw hheard _ _ rfl
  | outSkipped hs => exact .of_eq hw hheard hexpects rfl
  | outFinished hs => exact .of_eq hw hheard rfl rfl
  | unimplemented hs => exact .of_eq hw hheard hexpects rfl
  -- the states that are left expect a response
  | welcomed hs => simp [hs, State.expects] at hexpects
  | inReceived hpass hs => cases hpass <;> simp [hs, State.expects] at hexpects
  | executed hs => simp [hs, State.expects] at hexpects
  | outReceived hs => simp [hs, State.expects] at hexpects

/-- **The turn that takes a response adds it.** -/
theorem Turn.hears {w w' : RemoteWorker} (hturn : Turn codec p files w w')
    (hexpects : w.state.expects ≠ none) :
    w'.state.expects = none ∧ w'.asked = w.asked ∧
      ∃ r, codec.parseResponse w.incomingBuffer.getMessage = some r ∧
        w'.responses = w.responses ++ [r] := by
  cases hturn with
  | welcomed hs hparse =>
      exact ⟨rfl, by simp [RemoteWorker.asked, requests, decoded], _, hparse,
        by simp [responses, decoded]⟩
  | inReceived hpass hs hparse =>
      refine ⟨by cases hpass <;> rfl, by simp [RemoteWorker.asked, requests, decoded], _, hparse,
        by simp [responses, decoded]⟩
  | executed hs hparse =>
      exact ⟨rfl, by simp [RemoteWorker.asked, requests, decoded], _, hparse,
        by simp [responses, decoded]⟩
  | outReceived hs hparse =>
      exact ⟨rfl, by simp [RemoteWorker.asked, requests, decoded], _, hparse,
        by simp [responses, decoded]⟩
  -- the states that are left expect none
  | sendWelcome hs => simp [hs, State.expects] at hexpects
  | inSent hpass hs => cases hpass <;> simp [hs, State.expects] at hexpects
  | inSkipped hpass hs => cases hpass <;> simp [hs, State.expects] at hexpects
  | inFinished hpass hs => cases hpass <;> simp [hs, State.expects] at hexpects
  | sendExecute hs => simp [hs, State.expects] at hexpects
  | outSent hs => simp [hs, State.expects] at hexpects
  | outSkipped hs => simp [hs, State.expects] at hexpects
  | outFinished hs => simp [hs, State.expects] at hexpects
  | unimplemented hs => rcases hs with hs | hs | hs <;> simp [hs, State.expects] at hexpects

theorem Spoken.turn {w w' : RemoteWorker} (h : Spoken codec asked heard w)
    (himm : w.state.immediate = true) (hturn : Turn codec p files w w') :
    Spoken codec asked heard w' := by
  cases h with
  | silent hexpects hasked hheard => exact hturn.spoken hexpects hasked hheard
  | asking request hexpects =>
      exact absurd (hexpects.symm.trans (expects_of_immediate himm)) (by simp)

theorem dispatch_spoken {w w' : RemoteWorker} (hok : w.dispatch codec p files = .ok w')
    (hexpects : w.state.expects = none) : Spoken codec w.asked w.responses w' :=
  dispatch_induct hok (fun _ hturn => hturn.spoken hexpects rfl rfl) fun _ _ hw himm hturn =>
    hw.turn himm hturn

/-- A call of `dispatch` with one. -/
theorem dispatch_heard {w w' : RemoteWorker} (hok : w.dispatch codec p files = .ok w')
    (hexpects : w.state.expects ≠ none) :
    ∃ r, codec.parseResponse w.incomingBuffer.getMessage = some r ∧
      Spoken codec w.asked (w.responses ++ [r]) w' := by
  refine dispatch_induct (P := fun w' => ∃ r,
    codec.parseResponse w.incomingBuffer.getMessage = some r ∧
      Spoken codec w.asked (w.responses ++ [r]) w') hok ?_ ?_
  · intro w₁ hturn
    obtain ⟨hnone, hasked, r, hparse, hheard⟩ := hturn.hears hexpects
    exact ⟨r, hparse, .silent hnone hasked hheard⟩
  · rintro w₁ w₂ ⟨r, hparse, hw⟩ himm hturn
    exact ⟨r, hparse, hw.turn himm hturn⟩

end RemoteWorker

/-! ### What is under way

The two pasts differ by one message at most, and where they do, the message is on its way:
as a request, in the worker's hands, or as a response.  There is one constructor for each
place where it can be, and one for a worker that has gone with it.
-/

/--
Where the request is that the worker has not dealt with, or the response that the
controller's end has not decoded.
-/
inductive Transit (codec : Codec) (outbound inbound : Bytes) (process : Process) :
    List Request → List Response → Prop
  | quiet (hout : outbound = []) (hin : inbound = []) (hprocess : process.waiting = true) :
      Transit codec outbound inbound process [] []
  | requesting (request : Request) (hout : outbound = frame (codec.serializeRequest request))
      (hin : inbound = []) (hprocess : process.waiting = true)
      (hfit : (codec.serializeRequest request).length + 4 < 2 ^ 32) :
      Transit codec outbound inbound process [request] []
  | handling (request : Request) (hout : outbound = []) (hin : inbound = [])
      (hprocess : process = .handling request) :
      Transit codec outbound inbound process [request] []
  | responding (response : Response) (hout : outbound = []) (hin : inbound = [])
      (hprocess : process = .sending response)
      (hfit : (codec.serializeResponse response).length + 4 < 2 ^ 32) :
      Transit codec outbound inbound process [] [response]
  | answering (response : Response) (hout : outbound = [])
      (hin : inbound = frame (codec.serializeResponse response))
      (hprocess : process.waiting = true)
      (hfit : (codec.serializeResponse response).length + 4 < 2 ^ 32) :
      Transit codec outbound inbound process [] [response]
  /-- The worker has gone with it. -/
  | lost {waiting : List Request} {answers : List Response} (hin : inbound = [])
      (hprocess : ∃ code, process = .returned code)
      (hone : waiting.length + answers.length = 1) :
      Transit codec outbound inbound process waiting answers

/--
The two pasts differ by what is under way: the worker has dealt with the requests that
were made, but for those that wait, and its responses are those that were decoded, and
then those on their way.
-/
def Delivered (codec : Codec) (history : List Handled) (w : RemoteWorker) (l : Link) : Prop :=
  ∃ waiting answers, w.asked = history.map Handled.request ++ waiting ∧
    history.map Handled.response = w.responses ++ answers ∧
    Transit codec (outbound w l) (inbound w l) l.process waiting answers

namespace Transit

variable {codec : Codec} {w : RemoteWorker} {l l' : Link} {waiting : List Request}
  {answers : List Response}

/-- A message the worker has received is the request that waits. -/
theorem received (hsound : codec.Sound) {q left : Bytes} {rest : Chain UInt8} {process : Process}
    (h : Transit codec (outbound w l) (inbound w l) l.process waiting answers)
    (hreceiving : l.process = .receiving) (hqueue : l.toWorker = q :: rest)
    (hreceived : Process.received codec q = some (process, left)) :
    Transit codec (outbound w { l with process := process, toWorker := left :: rest })
      (inbound w l) process waiting answers := by
  obtain ⟨data, htake, hprocess⟩ := Process.received_cases hreceived
  -- the message is at the front of everything that goes out
  have hfront : lengthHeader.takeFrame (outbound w l)
      = some (data, outbound w { l with process := process, toWorker := left :: rest }) := by
    have hmore := Header.takeFrame_append htake (rest.flatten ++ w.outgoingBuffer.unsent)
    simpa [outbound, hqueue, Chain.stream] using hmore
  cases h with
  | quiet hout => simp [hout] at hfront
  | handling _ hout => simp [hout] at hfront
  | responding _ hout => simp [hout] at hfront
  | answering _ hout => simp [hout] at hfront
  | lost _ hreturned =>
      obtain ⟨code, hcode⟩ := hreturned
      exact absurd (hreceiving.symm.trans hcode) (by simp)
  | requesting request hout hin hwaiting hfit =>
      rw [hout, ← List.append_nil (frame _),
        Header.takeFrame_frame (by simp only [lengthHeader_bound]; omega), Option.some.injEq,
        Prod.mk.injEq] at hfront
      obtain ⟨hdata, hrest⟩ := hfront
      have hparse := hsound.request request
      rw [hdata] at hparse
      rcases hprocess with hclosed | ⟨hnone, -⟩ | ⟨request', hsome, hhandling⟩
      · exact .lost hin ⟨0, hclosed⟩ rfl
      · exact absurd (hparse.symm.trans hnone) (by simp)
      · rw [hparse, Option.some.injEq] at hsome
        exact .handling request hrest.symm hin (by rw [hsome]; exact hhandling)

/-- The response of a handler is the one to the request that waited. -/
theorem handled {request : Request} (env : WorkerEnv)
    (h : Transit codec (outbound w l) (inbound w l) l.process waiting answers)
    (hprocess : l.process = .handling request)
    (hfit : (codec.serializeResponse (Worker.handle env request)).length + 4 < 2 ^ 32) :
    waiting = [request] ∧ answers = [] ∧
      Transit codec (outbound w l) (inbound w l) (.sending (Worker.handle env request)) []
        [Worker.handle env request] := by
  cases h with
  | quiet _ _ hwaiting => simp [hprocess, Process.waiting] at hwaiting
  | requesting _ _ _ hwaiting => simp [hprocess, Process.waiting] at hwaiting
  | responding _ _ _ hsending => exact absurd (hprocess.symm.trans hsending) (by simp)
  | answering _ _ _ hwaiting => simp [hprocess, Process.waiting] at hwaiting
  | lost _ hreturned =>
      obtain ⟨code, hcode⟩ := hreturned
      exact absurd (hprocess.symm.trans hcode) (by simp)
  | handling request' hout hin hhandling =>
      rw [hprocess, Process.handling.injEq] at hhandling
      subst hhandling
      exact ⟨rfl, rfl, .responding _ hout hin rfl hfit⟩

/-- A response that is sent is all there is on its way back. -/
theorem answered {response : Response}
    (h : Transit codec (outbound w l) (inbound w l) l.process waiting answers)
    (hprocess : l.process = .sending response) :
    Transit codec (outbound w l)
      (inbound w { l with
        toController := l.toController.put (sendMessage (codec.serializeResponse response)) })
      .receiving waiting answers := by
  cases h with
  | quiet _ _ hwaiting => simp [hprocess, Process.waiting] at hwaiting
  | requesting _ _ _ hwaiting => simp [hprocess, Process.waiting] at hwaiting
  | handling _ _ _ hhandling => exact absurd (hprocess.symm.trans hhandling) (by simp)
  | answering _ _ _ hwaiting => simp [hprocess, Process.waiting] at hwaiting
  | lost _ hreturned =>
      obtain ⟨code, hcode⟩ := hreturned
      exact absurd (hprocess.symm.trans hcode) (by simp)
  | responding response' hout hin hsending hfit =>
      rw [hprocess, Process.sending.injEq] at hsending
      subst hsending
      refine .answering response hout ?_ rfl hfit
      obtain ⟨htaken, hqueue⟩ := List.append_eq_nil_iff.mp hin
      rw [inbound, htaken, Chain.stream_put, hqueue, sendMessage_eq hfit]
      rfl

/-- A worker that goes takes along what it has, and leaves what is under way. -/
theorem gone (code : Int)
    (h : Transit codec (outbound w l) (inbound w l) l.process waiting answers)
    (hprocess : ∀ request, l.process ≠ .handling request) :
    Transit codec (outbound w l) (inbound w l) (.returned code) waiting answers := by
  cases h with
  | quiet hout hin => exact .quiet hout hin rfl
  | requesting request hout hin _ hfit => exact .requesting request hout hin rfl hfit
  | handling request _ _ hhandling => exact absurd hhandling (hprocess request)
  | responding _ _ hin => exact .lost hin ⟨code, rfl⟩ rfl
  | answering response hout hin _ hfit => exact .answering response hout hin rfl hfit
  | lost hin _ hone => exact .lost hin ⟨code, rfl⟩ hone

/--
**The other end, and the queues in between**: a request waits until it goes on record,
and then its response is on its way.
-/
theorem link (hsound : codec.Sound) {input : Link.Input}
    (h : Transit codec (outbound w l) (inbound w l) l.process waiting answers)
    (hstep : l.step codec input = some l') (hfits : messagesFit codec w l' = true) :
    ∃ waiting', waiting = (l.note input).map Handled.request ++ waiting' ∧
      Transit codec (outbound w l') (inbound w l') l'.process waiting'
        (answers ++ (l.note input).map Handled.response) := by
  have hsilent : l.note input = [] →
      Transit codec (outbound w l') (inbound w l') l'.process waiting answers →
      ∃ waiting', waiting = (l.note input).map Handled.request ++ waiting' ∧
        Transit codec (outbound w l') (inbound w l') l'.process waiting'
          (answers ++ (l.note input).map Handled.response) := by
    intro hnote h'
    rw [hnote]
    exact ⟨waiting, rfl, by rwa [List.map_nil, List.append_nil]⟩
  cases input with
  | forwardRequest k n =>
      rw [Link.step, Option.some.injEq] at hstep
      subst hstep
      refine hsilent rfl ?_
      rw [outbound, Chain.stream_forward]
      exact h
  | forwardResponse k n =>
      rw [Link.step, Option.some.injEq] at hstep
      subst hstep
      refine hsilent rfl ?_
      rw [inbound, Chain.stream_forward]
      exact h
  | receive =>
      rw [Link.step] at hstep
      split at hstep
      · rename_i q rest hprocess hqueue
        split at hstep
        · rename_i process left hreceived
          rw [Option.some.injEq] at hstep
          subst hstep
          exact hsilent rfl (h.received hsound hprocess hqueue hreceived)
        · exact absurd hstep (by simp)
      · exact absurd hstep (by simp)
  | handle env =>
      rw [Link.step] at hstep
      split at hstep
      · rename_i request hprocess
        rw [Option.some.injEq] at hstep
        subst hstep
        simp only [messagesFit, Bool.and_eq_true, decide_eq_true_eq] at hfits
        obtain ⟨rfl, rfl, hsending⟩ := h.handled env hprocess hfits.2
        have hnote : l.note (.handle env) = [⟨request, env⟩] := by
          simp only [Link.note, hprocess]
        rw [hnote]
        exact ⟨[], rfl, hsending⟩
      · exact absurd hstep (by simp)
  | send =>
      rw [Link.step] at hstep
      split at hstep
      · rename_i response hprocess
        rw [Option.some.injEq] at hstep
        subst hstep
        exact hsilent rfl (h.answered hprocess)
      · exact absurd hstep (by simp)
  | fail code =>
      rw [Link.step] at hstep
      refine hsilent rfl ?_
      split at hstep
      · rename_i hprocess
        rw [Option.some.injEq] at hstep
        exact hstep ▸ h.gone code (fun request => by rw [hprocess]; simp)
      · rename_i response hprocess
        rw [Option.some.injEq] at hstep
        exact hstep ▸ h.gone code (fun request => by rw [hprocess]; simp)
      · exact absurd hstep (by simp)

end Transit

/-! ### What the controller's end does -/

/-- The message that is complete is at the front of everything that comes in. -/
theorem InStep.inbound_complete {codec : Codec} {w : RemoteWorker} {l l' : Link} {data : Bytes}
    {b : IncomingBuffer} (h : InStep codec w l)
    (hfit : w.incomingBuffer.admits (.ok data) = true) (hdeliver : l.deliver data = some l')
    (hb : w.incomingBuffer.receive (.ok data) = .ok (.ok b)) (hdone : b.needReceive = false) :
    inbound w l = frame b.getMessage ++ l'.toController.stream := by
  have hwf := h.tidy.incoming.receive hfit hb
  have htaken := (IncomingBuffer.receive_extends h.tidy.incoming hfit hb).2
  rw [inbound, (deliver_spec hdeliver).1, ← List.append_assoc, ← htaken,
    (IncomingBuffer.taken_eq_frame hwf hdone).1]

namespace Delivered

variable {codec : Codec} {p : Parameters} {files : Files} {history : List Handled}
  {w w' : RemoteWorker} {l l' : Link}

theorem make (addr : Nat) (fd : Int) (hops : Nat) :
    Delivered codec [] (RemoteWorker.make addr fd) (Link.make hops) :=
  ⟨[], [], rfl, rfl, .quiet (by simp [outbound, Link.make, RemoteWorker.make])
    (by simp [inbound, Link.make, RemoteWorker.make]) rfl⟩

/-- While no response is expected, the two pasts are the same. -/
theorem ready (h : Delivered codec history w l) (hin : InStep codec w l)
    (hexpects : w.state.expects = none) :
    history.map Handled.request = w.asked ∧ history.map Handled.response = w.responses := by
  obtain ⟨waiting, answers, hasked, hanswers, -⟩ := h
  have hbalanced := hin.balanced
  have hlen := congrArg List.length hasked
  have hlen' := congrArg List.length hanswers
  rw [hexpects] at hbalanced
  simp only [RemoteWorker.asked, List.length_map, List.length_append, Option.toList_none,
    List.length_nil] at hlen hlen' hbalanced
  obtain rfl : waiting = [] := List.eq_nil_of_length_eq_zero (by omega)
  obtain rfl : answers = [] := List.eq_nil_of_length_eq_zero (by omega)
  rw [hasked, hanswers, List.append_nil, List.append_nil]
  exact ⟨rfl, rfl⟩

/-- What `dispatch` leaves behind, when nothing else is under way. -/
theorem of_spoken
    (h : w.Spoken codec (history.map Handled.request) (history.map Handled.response))
    (hin : InStep codec w l) (hl : l.Quiet) (hfits : messagesFit codec w l = true) :
    Delivered codec history w l := by
  cases h with
  | silent hexpects hasked hheard =>
      obtain ⟨hready, -⟩ := hin.ready hexpects
      refine ⟨[], [], by rw [hasked, List.append_nil], by rw [hheard, List.append_nil],
        .quiet ?_ ?_ hl.process⟩
      · rw [outbound, hl.toWorker, hready.unsent]
        rfl
      · rw [inbound, hl.toController, hready.taken]
        rfl
  | asking request hexpects hasked hheard hbuffer htaken =>
      obtain ⟨b, hb⟩ := hbuffer
      have hfit : (codec.serializeRequest request).length + 4 < 2 ^ 32 := by
        simp only [messagesFit, hb, OutgoingBuffer.setMessage, List.length_append,
          Octets.length_little, Bool.and_eq_true, decide_eq_true_eq] at hfits
        omega
      refine ⟨[request], [], hasked, by rw [hheard, List.append_nil],
        .requesting request ?_ ?_ hl.process hfit⟩
      · rw [outbound, hl.toWorker, hb, OutgoingBuffer.unsent_setMessage b _ hfit]
        rfl
      · rw [inbound, hl.toController, htaken]
        rfl

theorem send {r : Except Errno Nat} {out : Bytes} (h : Delivered codec history w l)
    (hin : InStep codec w l) (hfit : w.outgoingBuffer.admits r = true)
    (hok : w.send r = .ok (w', out)) : Delivered codec history w' (l.post out) := by
  obtain ⟨waiting, answers, hasked, hanswers, htransit⟩ := h
  obtain ⟨b, hb, rfl⟩ := RemoteWorker.send_eq_ok hok
  have hout : outbound { w with outgoingBuffer := b } (l.post out) = outbound w l := by
    rw [outbound, outbound, (OutgoingBuffer.send_eq_ok hin.tidy.outgoing hfit hb).2]
    simp [Link.post]
  refine ⟨waiting, answers, hasked, hanswers, ?_⟩
  rw [hout]
  exact htransit

/-- **A response that is complete is the one to the last request.** -/
theorem complete {data : Bytes} {b : IncomingBuffer} (hsound : codec.Sound)
    (h : Delivered codec history w l) (hin : InStep codec w l)
    (hfit : w.incomingBuffer.admits (.ok data) = true) (hdeliver : l.deliver data = some l')
    (hb : w.incomingBuffer.receive (.ok data) = .ok (.ok b)) (hdone : b.needReceive = false) :
    ∃ response, codec.parseResponse b.getMessage = some response ∧
      history.map Handled.request = w.asked ∧
      history.map Handled.response = w.responses ++ [response] := by
  obtain ⟨waiting, answers, hasked, hanswers, htransit⟩ := h
  have hfront := hin.inbound_complete hfit hdeliver hb hdone
  have hmax := (IncomingBuffer.taken_eq_frame (hin.tidy.incoming.receive hfit hb) hdone).2
  have hsome : inbound w l ≠ [] := by
    rw [hfront]
    exact List.append_ne_nil_of_left_ne_nil (lengthHeader.frame_ne_nil _) _
  cases htransit with
  | quiet _ hnil => exact absurd hnil hsome
  | requesting _ _ hnil => exact absurd hnil hsome
  | handling _ _ hnil => exact absurd hnil hsome
  | responding _ _ hnil => exact absurd hnil hsome
  | lost hnil => exact absurd hnil hsome
  | answering response hout hanswer hwaiting hfits =>
      rw [hanswer, ← List.append_nil (frame _)] at hfront
      simp only [MAX_INCOMING_FILE_SIZE] at hmax
      obtain ⟨hmessage, -⟩ := Header.frame_unique
        (by simp only [lengthHeader_bound]; omega) (by simp only [lengthHeader_bound]; omega) hfront
      refine ⟨response, ?_, by rw [hasked, List.append_nil], hanswers⟩
      rw [← hmessage]
      exact hsound.response response

/-- **Receiving keeps the account.** -/
theorem receive {data : Bytes} (hsound : codec.Sound) (h : Delivered codec history w l)
    (hin : InStep codec w l) (hfit : w.incomingBuffer.admits (.ok data) = true)
    (hdeliver : l.deliver data = some l')
    (hok : w.receive codec p files (.ok data) = .ok (.ok w'))
    (hfits : messagesFit codec w' l' = true) : Delivered codec history w' l' := by
  have hin' := hin.receive hfit hdeliver hok hfits
  obtain ⟨b, hb, ⟨-, rfl⟩ | ⟨hdone, hdispatch⟩⟩ := RemoteWorker.receive_eq_ok hok
  · obtain ⟨hstream, hto, hprocess, -⟩ := InStep.deliver_spec hdeliver
    obtain ⟨waiting, answers, hasked, hanswers, htransit⟩ := h
    have htaken := (IncomingBuffer.receive_extends hin.tidy.incoming hfit hb).2
    have hinbound : inbound { w with incomingBuffer := b } l' = inbound w l := by
      rw [inbound, inbound, hstream, htaken, List.append_assoc]
    have hout : outbound { w with incomingBuffer := b } l' = outbound w l := by
      rw [outbound, outbound, hto]
    refine ⟨waiting, answers, hasked, hanswers, ?_⟩
    rw [hinbound, hout, hprocess]
    exact htransit
  · obtain ⟨harrived, hquiet, -⟩ := hin.complete hfit hdeliver hb hdone
    obtain ⟨response, hparse, hasked, hanswers⟩ := h.complete hsound hin hfit hdeliver hb hdone
    obtain ⟨r, hparse', hspoken⟩ := RemoteWorker.dispatch_heard hdispatch harrived.expects
    rw [hparse, Option.some.injEq] at hparse'
    subst hparse'
    refine of_spoken ?_ hin' hquiet hfits
    rw [hasked, hanswers]
    exact hspoken

/-- So does a call that is made when nothing is outstanding. -/
theorem dispatch (h : Delivered codec history w l) (hin : InStep codec w l)
    (hexpects : w.state.expects = none) {w₀ : RemoteWorker} (hexpects₀ : w₀.state.expects = none)
    (hasked : w₀.asked = w.asked) (hheard : w₀.responses = w.responses)
    (hok : w₀.dispatch codec p files = .ok w') (hin' : InStep codec w' l)
    (hfits : messagesFit codec w' l = true) : Delivered codec history w' l := by
  obtain ⟨-, hquiet⟩ := hin.ready hexpects
  obtain ⟨hrequests, hresponses⟩ := h.ready hin hexpects
  refine of_spoken ?_ hin' hquiet hfits
  rw [hrequests, hresponses, ← hasked, ← hheard]
  exact RemoteWorker.dispatch_spoken hok hexpects₀

theorem start (h : Delivered codec history w l) (hin : InStep codec w l)
    (hs : w.state = .sendWelcomeRequest) (hok : w.start codec p files = .ok w')
    (hfits : messagesFit codec w' l = true) : Delivered codec history w' l :=
  h.dispatch hin (by rw [hs]; rfl) (by rw [hs]; rfl) rfl rfl hok (hin.start hs hok hfits) hfits

theorem runFrame {frame : Int} (h : Delivered codec history w l) (hin : InStep codec w l)
    (hok : w.runFrame codec p files frame = .ok w') (hfits : messagesFit codec w' l = true) :
    Delivered codec history w' l := by
  obtain ⟨hidle, hdispatch⟩ := RemoteWorker.runFrame_eq_ok hok
  have hs : w.state = .idle := by simpa [RemoteWorker.isIdle] using hidle
  exact h.dispatch hin (by rw [hs]; rfl) rfl
    (by simp [RemoteWorker.asked, RemoteWorker.requests, RemoteWorker.given])
    (by simp [RemoteWorker.responses, RemoteWorker.given]) hdispatch
    (hin.runFrame hok hfits) hfits

theorem link (hsound : codec.Sound) {input : Link.Input} (h : Delivered codec history w l)
    (hstep : l.step codec input = some l') (hfits : messagesFit codec w l' = true) :
    Delivered codec (history ++ l.note input) w l' := by
  obtain ⟨waiting, answers, hasked, hanswers, htransit⟩ := h
  obtain ⟨waiting', rfl, htransit'⟩ := htransit.link hsound hstep hfits
  refine ⟨waiting', _, ?_, ?_, htransit'⟩
  · rw [hasked, List.map_append, List.append_assoc]
  · rw [List.map_append, hanswers, List.append_assoc]

/-- **What the two pasts have to do with each other.** -/
theorem spec (h : Delivered codec history w l) :
    history.map Handled.request <+: w.asked ∧ w.asked.length ≤ history.length + 1 ∧
      w.responses <+: history.map Handled.response ∧
      history.length ≤ w.responses.length + 1 := by
  obtain ⟨waiting, answers, hasked, hanswers, htransit⟩ := h
  have hone : waiting.length + answers.length ≤ 1 := by
    cases htransit with
    | lost _ _ hone => exact Nat.le_of_eq hone
    | _ => simp
  have hlen := congrArg List.length hasked
  have hlen' := congrArg List.length hanswers
  simp only [List.length_append, List.length_map] at hlen hlen'
  refine ⟨?_, by omega, ?_, by omega⟩
  · rw [hasked]
    exact List.prefix_append _ _
  · rw [hanswers]
    exact List.prefix_append _ _

end Delivered

/-! ### Runs of a pair -/

namespace Pair

variable {codec : Codec} {p : Parameters}

/-- What a step of a pair can do. -/
inductive Move (codec : Codec) (p : Parameters) (s : Pair) : Input → Pair → Prop
  | started {files : Files} {w : RemoteWorker} (hs : s.worker.state = .sendWelcomeRequest)
      (hok : s.worker.start codec p files = .ok w) :
      Move codec p s (.start files) { s with worker := w }
  | received {data : Bytes} {files : Files} {l : Link} {w : RemoteWorker}
      (hfit : s.worker.incomingBuffer.admits (.ok data) = true)
      (hdeliver : s.link.deliver data = some l)
      (hok : s.worker.receive codec p files (.ok data) = .ok (.ok w)) :
      Move codec p s (.recv (.ok data) files) { s with worker := w, link := l }
  | sent {r : Except Errno Nat} {w : RemoteWorker} {out : Bytes}
      (hfit : s.worker.outgoingBuffer.admits r = true) (hok : s.worker.send r = .ok (w, out)) :
      Move codec p s (.send r) { s with worker := w, link := s.link.post out }
  | given {frame : Int} {files : Files} {w : RemoteWorker}
      (hok : s.worker.runFrame codec p files frame = .ok w) :
      Move codec p s (.runFrame frame files) { s with worker := w }
  | link {input : Link.Input} {l : Link} (hl : s.link.step codec input = some l) :
      Move codec p s (.link input) { s with link := l }
  /-- The controller's end is over, and nothing else has happened. -/
  | stopped {input : Input} {status : Status} (hstatus : status ≠ .running)
      (hsilent : s.note input = []) : Move codec p s input { s with status := status }

theorem after_of {α : Type} {R : Pair → Prop} {s : Pair} {x : Outcome α} {f : α → Pair}
    (hok : ∀ a, x = .ok a → R (f a))
    (hstopped : ∀ status, status ≠ .running → R { s with status := status }) :
    R (s.after x f) := by
  cases x with
  | ok a => exact hok a rfl
  | exit why => exact hstopped _ (by simp)
  | hang => exact hstopped _ (by simp)
  | undefined => exact hstopped _ (by simp)

/-- **A step is one of those listed**, and only one that is running takes any. -/
theorem move_of_step {s t : Pair} {input : Input} (h : step codec p s input = some t) :
    s.status = .running ∧ Move codec p s input t := by
  unfold step at h
  split at h
  case isFalse => exact absurd h (by simp)
  rename_i hrunning
  refine ⟨hrunning, ?_⟩
  cases input with
  | start files =>
      simp only at h
      split at h
      · rename_i hs
        rw [Option.some.injEq] at h
        subst h
        exact after_of (fun w hok => .started hs hok) fun _ hne => .stopped hne rfl
      · exact absurd h (by simp)
  | recv r files =>
      simp only at h
      split at h
      · rename_i hfit
        obtain ⟨l, hl, rfl⟩ := Option.map_eq_some_iff.mp h
        refine after_of ?_ fun _ hne => .stopped hne rfl
        intro res hok
        cases res with
        | error e => exact .stopped (by simp) rfl
        | ok w =>
            cases r with
            | error e => simp [RemoteWorker.receive, IncomingBuffer.receive] at hok
            | ok data => exact .received hfit hl hok
      · exact absurd h (by simp)
  | send r =>
      simp only at h
      split at h
      · rename_i hfit
        split at h
        · rename_i w out hok
          rw [Option.some.injEq] at h
          exact h ▸ .sent hfit hok
        · rw [Option.some.injEq] at h
          exact h ▸ .stopped (by simp) rfl
      · exact absurd h (by simp)
  | runFrame frame files =>
      simp only at h
      split at h
      · rw [Option.some.injEq] at h
        subst h
        exact after_of (fun w hok => .given hok) fun _ hne => .stopped hne rfl
      · exact absurd h (by simp)
  | link input =>
      obtain ⟨l, hl, rfl⟩ := Option.map_eq_some_iff.mp h
      exact .link hl

/-- **One step keeps the account.** -/
theorem delivered_of_move (hsound : codec.Sound) {s t : Pair} {input : Input}
    {history : List Handled} (hin : InStep codec s.worker s.link)
    (h : Delivered codec history s.worker s.link) (hmove : Move codec p s input t)
    (hfits : messagesFit codec t.worker t.link = true) :
    Delivered codec (history ++ s.note input) t.worker t.link := by
  cases hmove with
  | started hs hok =>
      show Delivered codec (history ++ []) _ _
      rw [List.append_nil]
      exact h.start hin hs hok hfits
  | received hfit hdeliver hok =>
      show Delivered codec (history ++ []) _ _
      rw [List.append_nil]
      exact h.receive hsound hin hfit hdeliver hok hfits
  | sent hfit hok =>
      show Delivered codec (history ++ []) _ _
      rw [List.append_nil]
      exact h.send hin hfit hok
  | given hok =>
      show Delivered codec (history ++ []) _ _
      rw [List.append_nil]
      exact h.runFrame hin hok hfits
  | link hl => exact h.link hsound hl hfits
  | stopped _ hsilent =>
      rw [hsilent, List.append_nil]
      exact h

theorem reach_delivered (hsound : codec.Sound) {addr : Nat} {fd : Int} {hops : Nat} {s : Pair}
    {history : List Handled}
    (h : (recorded codec p addr fd hops).Reach (Machine.Onto (Fits codec p)) (s, history)) :
    Inv codec s ∧ Delivered codec history s.worker s.link := by
  refine Machine.Reach.recorded
    (P := fun s history => Inv codec s ∧ Delivered codec history s.worker s.link) ?_ ?_ h
  · exact ⟨Inv.of_inStep rfl (InStep.make addr fd hops), .make addr fd hops⟩
  · rintro s history input t ⟨hinv, hdelivered⟩ hfits hstep
    exact ⟨hinv.step hsound hfits hstep,
      delivered_of_move hsound hinv.inStep hdelivered (move_of_step hstep).2 (hfits t hstep)⟩

end Pair

/--
**Every request is dealt with once, in order, and answered.**  Whatever order the two
ends and the queues between them take their steps in, the requests the worker has dealt
with are the first of those the controller's end made, all but the last of them at
least; and the responses the controller's end has decoded are the first of those the
worker's handlers returned, again all but the last, so that each is the response to the
request in its place.
-/
theorem requests_dealt_with_once (codec : Codec) (hsound : codec.Sound) (p : Parameters)
    (addr : Nat) (fd : Int) (hops : Nat) (s : Pair) (history : List Handled)
    (h : (Pair.recorded codec p addr fd hops).Reach (Machine.Onto (Pair.Fits codec p))
      (s, history)) :
    history.map Handled.request <+: s.worker.asked ∧
      s.worker.asked.length ≤ history.length + 1 ∧
      s.worker.responses <+: history.map Handled.response ∧
      history.length ≤ s.worker.responses.length + 1 :=
  (Pair.reach_delivered hsound h).2.spec

/-! The frame that is rendered a few bytes at a time, with its two requests on record. -/

namespace Pair

/-- The pair at the beginning, and nothing on record. -/
def unrendered : Pair × List Handled := (⟨RemoteWorker.make 0 4, Link.make 1, .running⟩, [])

def oneRenderedRecord : Pair × List Handled :=
  ((recorded drpCodec oneProgram 0 4 1).exec (Machine.Onto (Fits drpCodec oneProgram)) unrendered
    (.start bareEnv.files :: exchange RemoteWorker.welcomeRequest ++
      .runFrame 1 bareEnv.files :: exchange (RemoteWorker.executeRequest oneProgram 1))).getD
    unrendered

theorem reach_oneRenderedRecord :
    (recorded drpCodec oneProgram 0 4 1).Reach (Machine.Onto (Fits drpCodec oneProgram))
      oneRenderedRecord :=
  Machine.Run.of_replay (by decide +kernel)

end Pair

theorem requests_dealt_with_once_rendered :
    Pair.oneRenderedRecord.2.map Handled.request <+: Pair.oneRenderedRecord.1.worker.asked ∧
      Pair.oneRenderedRecord.1.worker.asked.length ≤ Pair.oneRenderedRecord.2.length + 1 ∧
      Pair.oneRenderedRecord.1.worker.responses
        <+: Pair.oneRenderedRecord.2.map Handled.response ∧
      Pair.oneRenderedRecord.2.length ≤ Pair.oneRenderedRecord.1.worker.responses.length + 1 :=
  requests_dealt_with_once drpCodec drpCodec_sound Pair.oneProgram 0 4 1
    Pair.oneRenderedRecord.1 Pair.oneRenderedRecord.2 Pair.reach_oneRenderedRecord

end Distray
