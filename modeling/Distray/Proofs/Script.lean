/-
The requests of a worker follow the documented order of execution.

A session is one remote worker and whatever the network and the controller's loop do
with it.  While everything goes well nothing stops it, so its log is a log of the whole
script.

The log is about requests and responses.  That it is about the worker itself is shown for
each of the three ways in which a worker acts: the outgoing buffer holds the frame of the
last request of the log, the bytes that have gone out are the frames of the others, and
what was read from a file or written to one is what the calls came to.
-/
import Distray.Proofs.Log
import Distray.Proofs.Posting
import Distray.Proofs.Stream
import Distray.DrpCodec

namespace Distray

/-! ### Short answers -/

/-- A short answer that says that all went well. -/
def Response.plain : RequestType → Response
  | .welcome =>
      { requestType? := some .welcome
        welcomeResponse? := some { hostname? := some (bytes "unknown"), coreCount? := some 8 } }
  | .copyIn => { requestType? := some .copyIn, copyInResponse? := some { success? := some true } }
  | .execute => { requestType? := some .execute, executeResponse? := some { status? := some 0 } }
  | .copyOut =>
      { requestType? := some .copyOut
        copyOutResponse? := some { content? := some (bytes "data"), success? := some true } }

/-- What a short answer is encoded as can be received. -/
def Codec.Brief (codec : Codec) : Prop :=
  ∀ type, (codec.serializeResponse (.plain type)).length ≤ MAX_INCOMING_FILE_SIZE

theorem drpCodec_brief : drpCodec.Brief := by
  intro type
  cases type <;> decide +kernel

/-! ### Sessions

Between two calls a worker has not been started, is idle, or waits.  What is known of it then
is kept by each call, and since the log says at every point what is done, awaited and still
to come, the order of execution is read off the last of its states.
-/

namespace Session

open RemoteWorker

variable {codec : Codec} {p : Parameters}

/-- What a call can do: touch the buffers, or dispatch, with a new frame or without one. -/
theorem step_cases {w w' : RemoteWorker} {input : Input} (h : step codec p w input = some w') :
    (∃ b b', w' = { w with incomingBuffer := b, outgoingBuffer := b' }) ∨
      (∃ b files, { w with incomingBuffer := b }.dispatch codec p files = .ok w') ∨
      ∃ frame files, input = .runFrame frame files ∧
        (w.given frame).dispatch codec p files = .ok w' := by
  cases input with
  | start files =>
      rw [Session.step] at h
      split at h
      · exact Or.inr (Or.inl ⟨w.incomingBuffer, files, returned_eq_some.mp h⟩)
      · exact absurd h (by simp)
  | recv r files =>
      obtain ⟨b, -, ⟨-, rfl⟩ | ⟨-, hdispatch⟩⟩ := receive_eq_ok (step_recv h).2
      · exact Or.inl ⟨b, w.outgoingBuffer, rfl⟩
      · exact Or.inr (Or.inl ⟨b, files, hdispatch⟩)
  | send r =>
      obtain ⟨-, out, hok⟩ := step_send h
      obtain ⟨b, -, rfl⟩ := send_eq_ok hok
      exact Or.inl ⟨w.incomingBuffer, b, rfl⟩
  | runFrame frame files =>
      exact Or.inr (Or.inr ⟨frame, files, rfl, (runFrame_eq_ok (returned_eq_some.mp h)).2⟩)

/-- What is true of a worker between two calls. -/
structure Kept (p : Parameters) (w : RemoteWorker) : Prop where
  tidy : w.Tidy
  phased : w.Phased p
  logged : w.HasLog p
  /-- It has not been started, or it is idle, or it waits for a response. -/
  rests : w.state = .sendWelcomeRequest ∨ w.isIdle = true ∨ ∃ t, w.state.expects = some t

theorem rests_of_dispatch {w w' : RemoteWorker} {files : Files}
    (h : w.dispatch codec p files = .ok w') (hw : w'.Phased p) :
    w'.isIdle = true ∨ ∃ t, w'.state.expects = some t := by
  have himm := dispatch_waits h
  cases hs : w'.state <;>
    simp [hs, State.immediate, isIdle, State.expects, Phased] at himm hw ⊢

theorem Kept.dispatch {w w' : RemoteWorker} {files : Files} (htidy : w.Tidy)
    (hphased : w.Phased p) (hlog : w.HasLog p) (h : w.dispatch codec p files = .ok w') :
    Kept p w' :=
  ⟨dispatch_tidy h htidy, dispatch_phased h hphased, dispatch_hasLog h hlog,
    Or.inr (rests_of_dispatch h (dispatch_phased h hphased))⟩

theorem Kept.step {w w' : RemoteWorker} {input : Input} (hw : Kept p w)
    (hnonneg : FramesNonneg w input) (h : step codec p w input = some w') : Kept p w' := by
  cases input with
  | start files =>
      rw [Session.step] at h
      split at h
      · exact .dispatch hw.tidy hw.phased hw.logged (returned_eq_some.mp h)
      · exact absurd h (by simp)
  | recv r files =>
      obtain ⟨hfit, hok⟩ := step_recv h
      obtain ⟨b, hb, ⟨-, rfl⟩ | ⟨-, hdispatch⟩⟩ := receive_eq_ok hok
      · exact ⟨⟨hw.tidy.incoming.receive hfit hb, hw.tidy.outgoing⟩, hw.phased,
          hasLog_buffers hw.logged b w.outgoingBuffer, hw.rests⟩
      · exact .dispatch (w := { w with incomingBuffer := b })
          ⟨hw.tidy.incoming.receive hfit hb, hw.tidy.outgoing⟩
          (phased_incomingBuffer hw.phased b) (hasLog_buffers hw.logged b w.outgoingBuffer)
          hdispatch
  | send r =>
      obtain ⟨hfit, out, hok⟩ := step_send h
      have htidy := send_tidy hw.tidy hfit hok
      obtain ⟨b, -, rfl⟩ := send_eq_ok hok
      exact ⟨htidy, hw.phased, hasLog_buffers hw.logged w.incomingBuffer b, hw.rests⟩
  | runFrame frame files =>
      have hok := returned_eq_some.mp h
      obtain ⟨hidle, hdispatch⟩ := runFrame_eq_ok hok
      have hframe : 0 ≤ frame := by simpa [FramesNonneg, framesNonneg] using hnonneg
      have hlog := hasLog_given hw.logged hidle hframe
      exact ⟨runFrame_tidy hw.tidy hok, runFrame_phased hframe hok, dispatch_hasLog hdispatch hlog,
        Or.inr (rests_of_dispatch hdispatch (runFrame_phased hframe hok))⟩

theorem reach_kept {addr : Nat} {fd : Int} {w : RemoteWorker}
    (h : (machine codec p addr fd).Reach FramesNonneg w) : Kept p w :=
  Machine.Reach.invariant ⟨tidy_make addr fd, phased_make addr fd, hasLog_make addr fd, Or.inl rfl⟩
    (fun _ _ _ hw hok hstep => hw.step hok hstep) h

/-- A call that goes well: it is called for, and what it is answered with is good. -/
def Favourable (codec : Codec) (p : Parameters) (w : RemoteWorker) : Input → Prop
  | .start files => w.state = .sendWelcomeRequest ∧ Obliging files
  | .recv r files =>
      Obliging files ∧ ∃ data rest payload response job, r = .ok data ∧ data ≠ [] ∧
        w.incomingBuffer.admits (.ok data) = true ∧
        w.incomingBuffer.taken ++ (data ++ rest) = frame payload ∧
        payload.length ≤ MAX_INCOMING_FILE_SIZE ∧
        codec.parseResponse payload = some response ∧
        awaited p w = some job ∧ job.Answers response
  | .send r => ∃ n, r = .ok n ∧ w.outgoingBuffer.admits (.ok n) = true
  | .runFrame frame files => w.isIdle = true ∧ 0 ≤ frame ∧ Obliging files

theorem step_of_favourable {w : RemoteWorker} {input : Input} (hw : Kept p w)
    (h : Favourable codec p w input) : ∃ w', step codec p w input = some w' := by
  cases input with
  | start files =>
      obtain ⟨hs, hfiles⟩ := h
      obtain ⟨w', hw'⟩ := dispatch_returns hw.phased hfiles (Or.inl (by rw [hs]; rfl))
      exact ⟨w', by rw [Session.step, if_pos hs]; exact returned_eq_some.mpr hw'⟩
  | recv r files =>
      obtain ⟨hfiles, data, rest, payload, response, job, rfl, hne, hfit, hstream, hmax, hparse,
        hawaited, hanswers⟩ := h
      have hle : w.incomingBuffer.taken.length ≤ (frame payload).length := by
        rw [← hstream, List.length_append]
        exact Nat.le_add_right _ _
      rw [← List.append_nil (frame payload)] at hstream
      obtain ⟨b, hb, hext, hle'⟩ :=
        IncomingBuffer.receive_chunk hw.tidy.incoming hmax hstream hle hne hfit
      have hok : ∃ w', w.receive codec p files (.ok data) = .ok (.ok w') := by
        unfold RemoteWorker.receive
        rw [hb, Outcome.ok_bind]
        cases hneed : b.needReceive with
        | true => exact ⟨{ w with incomingBuffer := b }, by simp [hneed]⟩
        | false =>
            have hstream' : b.taken ++ rest = frame payload ++ [] := by
              rw [hext.2.1, List.append_assoc]
              exact hstream
            have hmessage :=
              (IncomingBuffer.getMessage_of_frame hext.1 hmax hstream' hle' hneed).2.2
            rw [← hmessage] at hparse
            obtain ⟨w', hw'⟩ := dispatch_returns (w := { w with incomingBuffer := b })
              (phased_incomingBuffer hw.phased b) hfiles
              (Or.inr ⟨job, response, hawaited, hparse, hanswers⟩)
            exact ⟨w', by simp [hneed, hw']⟩
      obtain ⟨w', hw'⟩ := hok
      exact ⟨w', by simp [Session.step, hfit, hw']⟩
  | send r =>
      obtain ⟨n, rfl, hfit⟩ := h
      obtain ⟨b, out, hb, -⟩ := OutgoingBuffer.send_spec hw.tidy.outgoing hfit
      exact ⟨{ w with outgoingBuffer := b }, by simp [Session.step, hfit, send, hb]⟩
  | runFrame frame files =>
      obtain ⟨hidle, hframe, hfiles⟩ := h
      have hphased : (w.given frame).Phased p := phased_given hframe
      obtain ⟨w', hw'⟩ := dispatch_returns hphased hfiles (Or.inl rfl)
      refine ⟨w', returned_eq_some.mpr ?_⟩
      rw [runFrame, if_pos hidle]
      exact hw'

/-- A worker is idle exactly when nothing is pending and nothing remains. -/
theorem idle_iff {w : RemoteWorker} {log : List Exchange} {pending : Option Asked}
    (hw : Kept p w) (hlog : Logged p w log pending) :
    w.isIdle = true ↔ pending = none ∧ remaining p w = [] := by
  rcases hw.rests with hs | hrests
  · simp [isIdle, remaining, hs]
  · exact (logged_iff.mp hlog).idle_iff hrests

/-- What has gone out in a session, and what is in the buffer, goes with its requests. -/
theorem reach_posts {addr : Nat} {fd : Int} {w : RemoteWorker} {posted : Bytes}
    (h : (posting codec p addr fd).Reach (Machine.Onto FramesNonneg) (w, posted)) :
    Posts codec posted w := by
  refine Machine.Reach.recorded (P := fun w posted => Posts codec posted w) (.make addr fd) ?_ h
  intro w posted input w' hw _ hstep
  change step codec p w input = some w' at hstep
  cases input with
  | send r =>
      obtain ⟨hfit, out, hok⟩ := step_send hstep
      obtain ⟨b, hb, rfl⟩ := send_eq_ok hok
      have hposts : posts w (.send r) = out := by simp only [posts, hok]
      rw [hposts]
      exact hw.send hfit hb
  | start files =>
      rw [show posts w (.start files) = [] from rfl, List.append_nil]
      rw [Session.step] at hstep
      split at hstep
      · exact hw.dispatch (returned_eq_some.mp hstep)
      · exact absurd hstep (by simp)
  | recv r files =>
      rw [show posts w (.recv r files) = [] from rfl, List.append_nil]
      obtain ⟨b, -, ⟨-, rfl⟩ | ⟨-, hdispatch⟩⟩ := receive_eq_ok (step_recv hstep).2
      · exact hw.of_eq rfl [] rfl rfl
      · have hfilled : Posts codec posted { w with incomingBuffer := b } := hw.of_eq rfl [] rfl rfl
        exact hfilled.dispatch hdispatch
  | runFrame frame files =>
      rw [show posts w (.runFrame frame files) = [] from rfl, List.append_nil]
      have hgiven : Posts codec posted (w.given frame) := hw.of_eq rfl [.startFrame frame] rfl rfl
      exact hgiven.dispatch (runFrame_eq_ok (returned_eq_some.mp hstep)).2

/-- A call adds to the trace what its files have answered. -/
theorem adds_of_step {w w' : RemoteWorker} {input : Input}
    (h : step codec p w input = some w') : Adds input.files w w' := by
  cases input with
  | start files =>
      rw [Session.step] at h
      split at h
      · exact dispatch_adds (returned_eq_some.mp h)
      · exact absurd h (by simp)
  | recv r files =>
      obtain ⟨b, -, ⟨-, rfl⟩ | ⟨-, hdispatch⟩⟩ := receive_eq_ok (step_recv h).2
      · exact ⟨[], rfl, by simp⟩
      · exact dispatch_adds (w := { w with incomingBuffer := b }) hdispatch
  | send r =>
      obtain ⟨-, out, hok⟩ := step_send h
      obtain ⟨b, -, rfl⟩ := send_eq_ok hok
      exact ⟨[], rfl, by simp⟩
  | runFrame frame files =>
      have hgiven : Adds files w (w.given frame) :=
        ⟨[.startFrame frame], rfl, by simp [Event.Truthful]⟩
      exact hgiven.trans (dispatch_adds (runFrame_eq_ok (returned_eq_some.mp h)).2)

def twoFrames : Parameters where
  frames := ⟨1, 2, 1⟩
  inCopies := [.make (bytes "scene") (bytes "scene")]
  outCopies := [.make (bytes "out%d") (bytes "image%d")]
  executable := bytes "render"

/-- Every file is there, and every write succeeds. -/
def allFiles : Files := ⟨fun _ => some (bytes "data"), fun _ => some 9⟩

theorem obliging_allFiles : Obliging allFiles :=
  ⟨fun _ => Option.some_ne_none _, fun _ _ => rfl⟩

/-- A response arrives. -/
def arrives (r : Response) : List Input :=
  [.recv (.ok ((frame (drpCodec.serializeResponse r)).take 4)) allFiles,
    .recv (.ok (drpCodec.serializeResponse r)) allFiles]

/-- A request goes out in two pieces, and then the response to it arrives. -/
def answered (request : Request) (r : Response) : List Input :=
  [.send (.ok 3), .send (.ok ((frame (drpCodec.serializeRequest request)).length - 3))] ++ arrives r

def copiedIn : Response :=
  { requestType? := some .copyIn, copyInResponse? := some { success? := some true } }

def copiedOut : Response :=
  { requestType? := some .copyOut
    copyOutResponse? := some { success? := some true, content? := some (bytes "image") } }

def executed : Response :=
  { requestType? := some .execute, executeResponse? := some { status? := some 0 } }

def frameInputs (frame : Int) (out : Bytes) : List Input :=
  .runFrame frame allFiles :: answered (executeRequest twoFrames frame) executed ++
    answered (copyOutRequest out) copiedOut

def twoFramesInputs : List Input :=
  .start allFiles :: answered welcomeRequest { requestType? := some .welcome } ++
    answered (copyInRequest (bytes "scene") (bytes "data")) copiedIn ++
    frameInputs 1 (bytes "out1") ++ frameInputs 2 (bytes "out2")

/-- The worker at the end of the session, and what has gone out. -/
def twoFramesEnd : RemoteWorker × Bytes :=
  ((posting drpCodec twoFrames 0 4).exec (Machine.Onto FramesNonneg) (.make 0 4, [])
    twoFramesInputs).getD (.make 0 4, [])

example : twoFramesEnd.1.written
    = [(bytes "image1", bytes "image"), (bytes "image2", bytes "image")] := by decide +kernel

theorem reach_twoFramesEnd :
    (posting drpCodec twoFrames 0 4).Reach (Machine.Onto FramesNonneg) twoFramesEnd :=
  Machine.Run.of_replay (by decide +kernel)

end Session

end Distray
