/-
What a remote worker's state says about its past.

Before its first frame a worker holds -1 and was given nothing.  From `run_frame` on
it holds the frame it was given until the next one, and its state tells which
responses it has seen since: none to a copy-out before the execute response, and
then one for each of the out-copies the index has passed.  Back in `IDLE` that makes
all of them, so an idle worker holds either -1 or a frame it has finished.

This is for numbers that are not negative.  A worker that is given -1 as a frame cannot be
told from one that has none, and what its state says about its past is then not true.
-/
import Distray.Controller
import Distray.Proofs.Dispatch

namespace Distray

/-- The states between `run_frame` and the execute response. -/
def State.rendering : State → Bool
  | .sendCopyInFrameFile | .receiveCopyInFrameFile | .sendExecuteRequest
  | .receiveExecuteResponse => true
  | _ => false

namespace RemoteWorker

variable {codec : Codec} {p : Parameters} {files : Files}

/-! ### What the trace of a worker shows -/

@[simp] theorem sinceStart_sendRequest (w : RemoteWorker) (request : Request)
    (source : Option (Bytes × Bytes)) (next : State) :
    (w.sendRequest codec request source next).sinceStart
      = .setMessage request source w.outgoingBuffer.needSend
        :: .reset w.incomingBuffer.partly :: w.sinceStart := by
  simp [sinceStart, sendRequest]

@[simp] theorem started_sendRequest (w : RemoteWorker) (request : Request)
    (source : Option (Bytes × Bytes)) (next : State) :
    (w.sendRequest codec request source next).started = w.started := by
  simp [started, sendRequest]

/-- The responses to copy-outs that a worker has seen since it was given a frame. -/
def copiedOut (w : RemoteWorker) : Nat := w.sinceStart.countP Event.copiedOut

/-- Whether it has seen that the renderer succeeded since then. -/
def executedOk (w : RemoteWorker) : Bool := w.sinceStart.any Event.executedOk

@[simp] theorem copiedOut_sendRequest (w : RemoteWorker) (request : Request)
    (source : Option (Bytes × Bytes)) (next : State) :
    (w.sendRequest codec request source next).copiedOut = w.copiedOut := by
  simp [copiedOut, Event.copiedOut]

@[simp] theorem executedOk_sendRequest (w : RemoteWorker) (request : Request)
    (source : Option (Bytes × Bytes)) (next : State) :
    (w.sendRequest codec request source next).executedOk = w.executedOk := by
  simp [executedOk, Event.executedOk]

theorem hasFinished_eq (w : RemoteWorker) : w.hasFinished p =
    (w.isIdle && (w.started == some w.frame) && w.executedOk &&
      (w.copiedOut == (frameOutCopies p).length)) := rfl

/-! ### The phases

What a state says about the past is said in terms of the trace, since the fields of a worker
that waits for the response to its second copy are not different from those of one that waits
for it in the frame before.
-/

/-- A worker that has been given a frame and is not done with it. -/
def Assigned (w : RemoteWorker) : Prop := 0 ≤ w.frame ∧ w.started = some w.frame

/-- The responses a worker has seen once the execute response is in. -/
def Executed (p : Parameters) (w : RemoteWorker) : Prop :=
  w.Assigned ∧ w.executedOk = true ∧
    w.copiedOut = (p.outCopies.take w.stateIndex).countP FileCopy.hasParameter

/-- What each state says about the past. -/
def Phased (p : Parameters) (w : RemoteWorker) : Prop :=
  match w.state with
  | .sendWelcomeRequest | .receiveWelcomeResponse | .sendCopyInNonFrameFile
  | .receiveCopyInNonFrameFile => w.frame = -1 ∧ w.started = none
  | .idle => (w.frame = -1 ∧ w.started = none) ∨ (0 ≤ w.frame ∧ w.hasFinished p = true)
  | .sendCopyInFrameFile | .receiveCopyInFrameFile | .sendExecuteRequest
  | .receiveExecuteResponse => w.Assigned ∧ w.copiedOut = 0
  | .sendCopyOutFrameFile => w.Executed p
  | .receiveCopyOutFrameFile =>
      w.Executed p ∧ ∃ c, p.outCopies[w.stateIndex]? = some c ∧ c.hasParameter = true
  | .sendCopyOutNonFrameFile | .receiveCopyOutNonFrameFile | .done => False

theorem phased_incomingBuffer {w : RemoteWorker} (h : w.Phased p) (b : IncomingBuffer) :
    { w with incomingBuffer := b }.Phased p := h

theorem phased_outgoingBuffer {w : RemoteWorker} (h : w.Phased p) (b : OutgoingBuffer) :
    { w with outgoingBuffer := b }.Phased p := h

theorem phased_make (addr : Nat) (fd : Int) : (make addr fd).Phased p := ⟨rfl, rfl⟩

theorem Executed.of_eq {w w' : RemoteWorker} (h : w.Executed p) (hframe : w'.frame = w.frame)
    (hstarted : w'.started = w.started) (hok : w'.executedOk = w.executedOk)
    (hcount : w'.copiedOut = (p.outCopies.take w'.stateIndex).countP FileCopy.hasParameter) :
    w'.Executed p := by
  obtain ⟨⟨hnonneg, hst⟩, hex, -⟩ := h
  exact ⟨⟨by rw [hframe]; exact hnonneg, by rw [hstarted, hframe]; exact hst⟩,
    by rw [hok]; exact hex, hcount⟩

theorem countP_take_succ {l : List FileCopy} {n : Nat} {c : FileCopy} (h : l[n]? = some c) :
    (l.take (n + 1)).countP FileCopy.hasParameter
      = (l.take n).countP FileCopy.hasParameter + (if c.hasParameter then 1 else 0) := by
  rw [List.take_add_one, h, Option.toList_some, List.countP_append, List.countP_singleton]

private theorem started_decoded (w : RemoteWorker) (r : Response) :
    (w.decoded r).started = w.started := by
  simp [started, decoded]

private theorem copiedOut_decoded (w : RemoteWorker) (r : Response) :
    (w.decoded r).copiedOut = w.copiedOut + (if r.requestType = .copyOut then 1 else 0) := by
  simp [copiedOut, sinceStart, decoded, List.countP_cons, Event.copiedOut]

private theorem executedOk_decoded (w : RemoteWorker) (r : Response) :
    (w.decoded r).executedOk
      = (Event.executedOk (.response r) || w.executedOk) := by
  simp [executedOk, sinceStart, decoded, Event.executedOk]

private theorem phased_inSent {w : RemoteWorker} {frame : Int} {send recv next : State}
    (hw : w.Phased p) (hpass : InPass w frame send recv next) (hs : w.state = send)
    (request : Request) (source : Option (Bytes × Bytes)) :
    (w.sendRequest codec request source recv).Phased p := by
  cases hpass with
  | nonFrame =>
      simp only [Phased, hs] at hw
      exact ⟨hw.1, by simp [hw.2]⟩
  | frame =>
      simp only [Phased, hs] at hw
      exact ⟨⟨hw.1.1, (started_sendRequest ..).trans hw.1.2⟩,
        (copiedOut_sendRequest ..).trans hw.2⟩

private theorem phased_inReceived {w : RemoteWorker} {frame : Int} {send recv next : State}
    {r : Response} (hw : w.Phased p) (hpass : InPass w frame send recv next)
    (hs : w.state = recv) (htype : r.requestType = .copyIn) (index : Nat) :
    { w.decoded r with stateIndex := index, state := send }.Phased p := by
  cases hpass with
  | nonFrame =>
      simp only [Phased, hs] at hw
      exact ⟨hw.1, (started_decoded w r).trans hw.2⟩
  | frame =>
      simp only [Phased, hs] at hw
      refine ⟨⟨hw.1.1, (started_decoded w r).trans hw.1.2⟩, ?_⟩
      exact (copiedOut_decoded w r).trans (by simp [htype, hw.2])

/-- At the end of the pass all the frame's files have been copied out. -/
private theorem phased_outFinished {w : RemoteWorker} (hw : w.Executed p)
    (hend : p.outCopies[w.stateIndex]? = none) : { w with state := .idle }.Phased p := by
  obtain ⟨⟨hnonneg, hstarted⟩, hok, hcount⟩ := hw
  rw [List.take_of_length_le (List.getElem?_eq_none_iff.mp hend)] at hcount
  refine Or.inr ⟨hnonneg, ?_⟩
  rw [hasFinished_eq]
  simp only [Bool.and_eq_true, beq_iff_eq, isIdle, decide_true, true_and]
  exact ⟨⟨hstarted, hok⟩, hcount.trans List.countP_eq_length_filter⟩

/-- The response counts the copy at the index, and the index goes past it. -/
private theorem phased_outReceived {w : RemoteWorker} {r : Response} {c : FileCopy}
    (hw : w.Executed p) (hcopy : p.outCopies[w.stateIndex]? = some c)
    (hparam : c.hasParameter = true) (htype : r.requestType = .copyOut) (path : Bytes)
    (stored : Option Bytes) :
    { w.decoded r with
      trace := .writeFile path r.copyOutResponse.content stored :: (w.decoded r).trace
      stateIndex := w.stateIndex + 1
      state := .sendCopyOutFrameFile }.Phased p := by
  obtain ⟨⟨hnonneg, hstarted⟩, hok, hcount⟩ := hw
  refine ⟨⟨hnonneg, ?_⟩, ?_, ?_⟩
  · simpa [started, decoded, List.findSome?_cons] using hstarted
  · simp only [executedOk, sinceStart, decoded, List.takeWhile_cons] at hok ⊢
    simp [hok]
  · have hlater : ({ w.decoded r with
        trace := .writeFile path r.copyOutResponse.content stored :: (w.decoded r).trace
        stateIndex := w.stateIndex + 1
        state := .sendCopyOutFrameFile } : RemoteWorker).copiedOut
          = (w.decoded r).copiedOut := by
      simp [copiedOut, sinceStart, Event.copiedOut]
    rw [hlater, copiedOut_decoded, htype, hcount]
    simp only [if_true]
    rw [countP_take_succ hcopy, hparam]
    rfl

/-- **A turn keeps the phases.** -/
theorem Turn.phased {w w' : RemoteWorker} (h : Turn codec p files w w') (hw : w.Phased p) :
    w'.Phased p := by
  cases h with
  | sendWelcome hs =>
      simp only [Phased, hs] at hw
      exact ⟨hw.1, by simp [hw.2]⟩
  | welcomed hs =>
      rename_i r _ _
      simp only [Phased, hs] at hw
      exact ⟨hw.1, (started_decoded w r).trans hw.2⟩
  | inSent hpass hs => exact phased_inSent hw hpass hs _ _
  | inSkipped hpass hs =>
      cases hpass <;>
        · simp only [Phased, hs] at hw ⊢
          exact hw
  | inFinished hpass hs =>
      cases hpass with
      | nonFrame =>
          simp only [Phased, hs] at hw
          exact Or.inl hw
      | frame =>
          simp only [Phased, hs] at hw
          exact hw
  | inReceived hpass hs hparse htype => exact phased_inReceived hw hpass hs htype _
  | sendExecute hs =>
      simp only [Phased, hs] at hw
      exact ⟨⟨hw.1.1, (started_sendRequest ..).trans hw.1.2⟩,
        (copiedOut_sendRequest ..).trans hw.2⟩
  | @executed r hs hparse htype hstatus =>
      simp only [Phased, hs] at hw
      refine ⟨⟨hw.1.1, (started_decoded w r).trans hw.1.2⟩, ?_, ?_⟩
      · exact (executedOk_decoded w r).trans (by simp [Event.executedOk, htype, hstatus])
      · exact (copiedOut_decoded w r).trans (by simp [htype, hw.2])
  | @outSent c hs hcopy hmatch =>
      simp only [Phased, hs] at hw
      have hparam : c.hasParameter = true := by
        rw [← hmatch, decide_eq_true_eq]
        exact hw.1.1
      refine ⟨hw.of_eq rfl (started_sendRequest ..) (executedOk_sendRequest ..) ?_,
        c, hcopy, hparam⟩
      exact (copiedOut_sendRequest ..).trans hw.2.2
  | @outSkipped c hs hcopy hmatch =>
      simp only [Phased, hs] at hw
      have hparam : c.hasParameter = false := by
        cases hc : c.hasParameter with
        | false => rfl
        | true => exact absurd (decide_eq_true hw.1.1) (by rw [hc] at hmatch; exact hmatch)
      simp only [Phased, hs]
      refine hw.of_eq rfl rfl rfl ?_
      rw [countP_take_succ hcopy, hparam]
      exact hw.2.2
  | outFinished hs hend =>
      simp only [Phased, hs] at hw
      exact phased_outFinished hw hend
  | @outReceived r c hs hparse htype hcopy hsuccess hwrite =>
      simp only [Phased, hs] at hw
      obtain ⟨hexecuted, c', hcopy', hparam⟩ := hw
      have hsame : c' = c := Option.some.inj (hcopy'.symm.trans hcopy)
      exact phased_outReceived hexecuted hcopy (hsame ▸ hparam) htype _ _
  | unimplemented hs =>
      exfalso
      rcases hs with hs | hs | hs <;> simp [Phased, hs] at hw

/-- Only `run_frame` changes the frame, and nothing changes who the worker is. -/
theorem Turn.same {w w' : RemoteWorker} (h : Turn codec p files w w') :
    w'.addr = w.addr ∧ w'.fd = w.fd ∧ w'.frame = w.frame := by
  cases h <;> exact ⟨rfl, rfl, rfl⟩

/-! ### What the calls keep

A call of `receive`, `send` or `run_frame` is some bytes in or out of a buffer, and then
perhaps turns of `dispatch`.  What turns keep is carried over the loop, and the buffers have
no part in it, so each of the calls keeps it too.
-/

/-- The buffers of a worker are in order. -/
structure Tidy (w : RemoteWorker) : Prop where
  incoming : w.incomingBuffer.WF
  outgoing : w.outgoingBuffer.WF

theorem Turn.tidy {w w' : RemoteWorker} (h : Turn codec p files w w') (hw : w.Tidy) :
    w'.Tidy := by
  refine ⟨?_, ?_⟩
  · cases h <;> first | exact hw.incoming.reset | exact hw.incoming
  · cases h <;> first | exact OutgoingBuffer.wf_setMessage _ _ | exact hw.outgoing

theorem dispatch_tidy {w w' : RemoteWorker} (h : w.dispatch codec p files = .ok w')
    (hw : w.Tidy) : w'.Tidy :=
  dispatch_invariant (fun _ _ hw hturn => hturn.tidy hw) h hw

theorem dispatch_phased {w w' : RemoteWorker} (h : w.dispatch codec p files = .ok w')
    (hw : w.Phased p) : w'.Phased p :=
  dispatch_invariant (fun _ _ hw hturn => hturn.phased hw) h hw

theorem dispatch_same {w w' : RemoteWorker} (h : w.dispatch codec p files = .ok w') :
    w'.addr = w.addr ∧ w'.fd = w.fd ∧ w'.frame = w.frame := by
  refine dispatch_invariant (P := fun w' => w'.addr = w.addr ∧ w'.fd = w.fd ∧ w'.frame = w.frame)
    ?_ h ⟨rfl, rfl, rfl⟩
  intro w₁ w₂ hw₁ hturn
  obtain ⟨haddr, hfd, hframe⟩ := hturn.same
  exact ⟨haddr.trans hw₁.1, hfd.trans hw₁.2.1, hframe.trans hw₁.2.2⟩

theorem tidy_make (addr : Nat) (fd : Int) : (make addr fd).Tidy :=
  ⟨IncomingBuffer.wf_make fd, OutgoingBuffer.wf_make fd⟩

/-- Starting a worker sends the welcome request, and cannot fail. -/
theorem start_make (addr : Nat) (fd : Int) (proxyIndex : Int) :
    { make addr fd with proxyIndex := proxyIndex }.start codec p files
      = .ok ({ make addr fd with proxyIndex := proxyIndex }.sendRequest codec welcomeRequest none
          .receiveWelcomeResponse) := by
  unfold start dispatch dispatchFuel
  rw [dispatchLoop]
  simp [dispatchStep, make, sendRequest, State.immediate]

theorem dispatch_idle {w : RemoteWorker} (h : w.isIdle = true) :
    w.dispatch codec p files = .exit .dispatchedIdle := by
  have hs : w.state = .idle := by simpa [isIdle] using h
  unfold dispatch dispatchFuel
  rw [dispatchLoop]
  simp [dispatchStep, hs]

/-- A call of `receive` that succeeds, with or without the end of a message. -/
theorem receive_eq_ok {w w' : RemoteWorker} {r : Except Errno Bytes}
    (h : w.receive codec p files r = .ok (.ok w')) :
    ∃ b, w.incomingBuffer.receive r = .ok (.ok b) ∧
      ((b.needReceive = true ∧ w' = { w with incomingBuffer := b }) ∨
        (b.needReceive = false ∧
          { w with incomingBuffer := b }.dispatch codec p files = .ok w')) := by
  obtain ⟨res, hres, h⟩ := Outcome.bind_eq_ok.mp h
  cases res with
  | error e => exact absurd h (by simp)
  | ok b =>
      refine ⟨b, hres, ?_⟩
      simp only at h
      split at h
      · rename_i hneed
        simp only [Outcome.ok.injEq, Except.ok.injEq] at h
        exact Or.inl ⟨hneed, h.symm⟩
      · rename_i hneed
        obtain ⟨w₁, hdispatch, h⟩ := Outcome.bind_eq_ok.mp h
        simp only [Outcome.ok.injEq, Except.ok.injEq] at h
        exact Or.inr ⟨by simpa using hneed, h ▸ hdispatch⟩

/-- A call of `receive` fails exactly as the call on the buffer does. -/
theorem receive_eq_error {w : RemoteWorker} {r : Except Errno Bytes} {e : Errno} :
    w.receive codec p files r = .ok (.error e) ↔
      w.incomingBuffer.receive r = .ok (.error e) := by
  unfold receive
  cases hres : w.incomingBuffer.receive r with
  | ok res =>
      cases res with
      | error e' => simp
      | ok b =>
          simp only [Outcome.ok_bind, Outcome.ok.injEq, reduceCtorEq, iff_false]
          split
          · simp
          · intro h
            obtain ⟨w₁, -, h⟩ := Outcome.bind_eq_ok.mp h
            exact absurd h (by simp)
  | exit why => simp
  | hang => simp
  | undefined => simp

theorem receive_tidy {w w' : RemoteWorker} {r : Except Errno Bytes} (hw : w.Tidy)
    (hfit : w.incomingBuffer.admits r = true) (h : w.receive codec p files r = .ok (.ok w')) :
    w'.Tidy := by
  obtain ⟨b, hb, ⟨-, rfl⟩ | ⟨-, hdispatch⟩⟩ := receive_eq_ok h
  · exact ⟨hw.incoming.receive hfit hb, hw.outgoing⟩
  · exact dispatch_tidy hdispatch ⟨hw.incoming.receive hfit hb, hw.outgoing⟩

theorem receive_phased {w w' : RemoteWorker} {r : Except Errno Bytes} (hw : w.Phased p)
    (h : w.receive codec p files r = .ok (.ok w')) : w'.Phased p := by
  obtain ⟨b, -, ⟨-, rfl⟩ | ⟨-, hdispatch⟩⟩ := receive_eq_ok h
  · exact phased_incomingBuffer hw b
  · exact dispatch_phased hdispatch (phased_incomingBuffer hw b)

theorem receive_same {w w' : RemoteWorker} {r : Except Errno Bytes}
    (h : w.receive codec p files r = .ok (.ok w')) :
    w'.addr = w.addr ∧ w'.fd = w.fd ∧ w'.frame = w.frame ∧
      (w.isIdle = true → w'.isIdle = true) := by
  obtain ⟨b, -, ⟨-, rfl⟩ | ⟨-, hdispatch⟩⟩ := receive_eq_ok h
  · exact ⟨rfl, rfl, rfl, id⟩
  · refine ⟨(dispatch_same hdispatch).1, (dispatch_same hdispatch).2.1,
      (dispatch_same hdispatch).2.2, ?_⟩
    intro hidle
    have hidle' : ({ w with incomingBuffer := b } : RemoteWorker).isIdle = true := hidle
    exact absurd ((dispatch_idle hidle').symm.trans hdispatch) (by simp)

/-- A call of `send` that succeeds only changes the buffer. -/
theorem send_eq_ok {w w' : RemoteWorker} {r : Except Errno Nat} {out : Bytes}
    (h : w.send r = .ok (w', out)) :
    ∃ b, w.outgoingBuffer.send r = .ok (b, out) ∧ w' = { w with outgoingBuffer := b } := by
  unfold send at h
  split at h
  · exact absurd h (by simp)
  · rename_i b out' hsend
    simp only [Except.ok.injEq, Prod.mk.injEq] at h
    obtain ⟨rfl, rfl⟩ := h
    exact ⟨b, hsend, rfl⟩

theorem send_tidy {w w' : RemoteWorker} {r : Except Errno Nat} {out : Bytes} (hw : w.Tidy)
    (hfit : w.outgoingBuffer.admits r = true) (h : w.send r = .ok (w', out)) : w'.Tidy := by
  obtain ⟨b, hb, rfl⟩ := send_eq_ok h
  exact ⟨hw.incoming, (OutgoingBuffer.send_eq_ok hw.outgoing hfit hb).1⟩

/-- A turn taken at once does not leave the states before the execute response. -/
theorem Turn.rendering {w w' : RemoteWorker} (h : Turn codec p files w w')
    (hw : w.state.rendering = true) (himm : w.state.immediate = true) :
    w'.state.rendering = true := by
  cases h with
  | sendWelcome hs => simp [hs, State.rendering] at hw
  | welcomed hs => simp [hs, State.rendering] at hw
  | inSent hpass hs =>
      cases hpass with
      | nonFrame => simp [hs, State.rendering] at hw
      | frame => rfl
  | inSkipped hpass hs => exact hw
  | inFinished hpass hs =>
      cases hpass with
      | nonFrame => simp [hs, State.rendering] at hw
      | frame => rfl
  | inReceived hpass hs => cases hpass <;> simp [hs, State.immediate] at himm
  | sendExecute hs => rfl
  | executed hs => simp [hs, State.immediate] at himm
  | outSent hs => simp [hs, State.rendering] at hw
  | outSkipped hs => simp [hs, State.rendering] at hw
  | outFinished hs => simp [hs, State.rendering] at hw
  | outReceived hs => simp [hs, State.rendering] at hw
  | unimplemented => exact hw

/-- A worker that has just been given a frame. -/
def given (w : RemoteWorker) (frame : Int) : RemoteWorker :=
  { w with
    frame := frame, state := .sendCopyInFrameFile, stateIndex := 0
    trace := .startFrame frame :: w.trace }

theorem runFrame_eq_ok {w w' : RemoteWorker} {frame : Int}
    (h : w.runFrame codec p files frame = .ok w') :
    w.isIdle = true ∧ (w.given frame).dispatch codec p files = .ok w' := by
  unfold runFrame at h
  split at h
  · rename_i hidle
    exact ⟨hidle, h⟩
  · exact absurd h (by simp)

theorem runFrame_tidy {w w' : RemoteWorker} {frame : Int} (hw : w.Tidy)
    (h : w.runFrame codec p files frame = .ok w') : w'.Tidy :=
  dispatch_tidy (runFrame_eq_ok h).2 ⟨hw.incoming, hw.outgoing⟩

theorem phased_given {w : RemoteWorker} {frame : Int} (hframe : 0 ≤ frame) :
    (w.given frame).Phased p := by
  simp [Phased, Assigned, given, started, copiedOut, sinceStart, hframe]

theorem runFrame_phased {w w' : RemoteWorker} {frame : Int} (hframe : 0 ≤ frame)
    (h : w.runFrame codec p files frame = .ok w') : w'.Phased p :=
  dispatch_phased (runFrame_eq_ok h).2 (phased_given hframe)

theorem runFrame_same {w w' : RemoteWorker} {frame : Int}
    (h : w.runFrame codec p files frame = .ok w') :
    w'.addr = w.addr ∧ w'.fd = w.fd ∧ w'.frame = frame ∧ w'.isIdle = false := by
  have hdispatch := (runFrame_eq_ok h).2
  have hrendering : w'.state.rendering = true :=
    dispatch_induct hdispatch (fun w₁ hturn => hturn.rendering rfl rfl)
      fun w₁ w₂ hw₁ himm hturn => hturn.rendering hw₁ himm
  refine ⟨(dispatch_same hdispatch).1, (dispatch_same hdispatch).2.1,
    (dispatch_same hdispatch).2.2, ?_⟩
  simp only [isIdle, decide_eq_false_iff_not]
  intro hs
  simp [hs, State.rendering] at hrendering

end RemoteWorker

end Distray
