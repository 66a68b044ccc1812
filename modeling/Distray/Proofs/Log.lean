/-
The jobs of a worker, and its log of them.

`script` is the documented order of execution, written down for a whole session: what
goes in once, and then for each frame what goes in, the renderer, and what comes out.
`dispatch` has no such list.  It has a state and one index that is used for three
different loops, and `remaining` says which part of the script they stand for.  Each
turn either sends the request for the first job of what remains or leaves what remains
alone, so the jobs that are done, the one that is awaited and the ones that remain
always make up the script.
-/
import Distray.Session
import Distray.Proofs.Phases

namespace Distray

/-! ### The order of execution

The jobs are read off the lists as the documentation has them, with no index and no state.
A job that no list asks for is not in the script, so to follow it is to do nothing else.
-/

/-- One exchange with the worker. -/
inductive Job
  | welcome
  | copyIn (source destination : Bytes)
  | execute (executable : Bytes) (arguments : List Bytes)
  | copyOut (source destination : Bytes)
deriving DecidableEq, Repr

/-- A job for each copy that is wanted. -/
def jobsOf (wanted : FileCopy → Bool) (job : FileCopy → Job) (copies : List FileCopy) : List Job :=
  (copies.filter wanted).map job

/-- The in-copies without a frame parameter, as they are. -/
def plainIns (copies : List FileCopy) : List Job :=
  jobsOf (fun c => !c.hasParameter) (fun c => .copyIn c.source c.destination) copies

/-- The in-copies with a frame parameter, for one frame. -/
def frameIns (frame : Int) (copies : List FileCopy) : List Job :=
  jobsOf FileCopy.hasParameter
    (fun c => .copyIn (substituteParameter c.source frame)
      (substituteParameter c.destination frame))
    copies

/-- The out-copies with a frame parameter, for one frame. -/
def frameOuts (frame : Int) (copies : List FileCopy) : List Job :=
  jobsOf FileCopy.hasParameter
    (fun c => .copyOut (substituteParameter c.source frame)
      (substituteParameter c.destination frame))
    copies

def executeJob (p : Parameters) (frame : Int) : Job :=
  .execute p.executable (p.arguments.map fun argument => substituteParameter argument frame)

/-- What is done for one frame. -/
def frameScript (p : Parameters) (frame : Int) : List Job :=
  frameIns frame p.inCopies ++ executeJob p frame :: frameOuts frame p.outCopies

/-- What is done in a session with these frames. -/
def script (p : Parameters) (frames : List Int) : List Job :=
  .welcome :: plainIns p.inCopies ++ frames.flatMap (frameScript p)

namespace Job

/-- The request for a job; what a file that goes in holds is what was read for it. -/
def Asks (request : Request) (source : Option (Bytes × Bytes)) : Job → Prop
  | .welcome => request = { requestType? := some .welcome } ∧ source = none
  | .copyIn src dst =>
      ∃ content, request =
        { requestType? := some .copyIn
          copyInRequest? := some { pathname? := some dst, content? := some content } } ∧
        source = some (src, content)
  | .execute executable arguments =>
      request =
        { requestType? := some .execute
          executeRequest? := some { executable? := some executable, argument := arguments } } ∧
        source = none
  | .copyOut src _ =>
      request =
        { requestType? := some .copyOut, copyOutRequest? := some { pathname? := some src } } ∧
        source = none

def type : Job → RequestType
  | .welcome => .welcome
  | .copyIn _ _ => .copyIn
  | .execute _ _ => .execute
  | .copyOut _ _ => .copyOut

/-- A response that says that the job was done. -/
def Answers (response : Response) (job : Job) : Prop :=
  response.requestType = job.type ∧
    match job with
    | .welcome => True
    | .copyIn _ _ => response.copyInResponse.success = true
    | .execute _ _ => response.executeResponse.status = 0
    | .copyOut _ _ => response.copyOutResponse.success = true

theorem Answers.copyIn {r : Response} {job : Job} (h : job.Answers r) (ht : job.type = .copyIn) :
    r.copyInResponse.success = true := by
  cases job <;> simp [type] at ht
  exact h.2

theorem Answers.execute {r : Response} {job : Job} (h : job.Answers r)
    (ht : job.type = .execute) : r.executeResponse.status = 0 := by
  cases job <;> simp [type] at ht
  exact h.2

theorem Answers.copyOut {r : Response} {job : Job} (h : job.Answers r)
    (ht : job.type = .copyOut) : r.copyOutResponse.success = true := by
  cases job <;> simp [type] at ht
  exact h.2

/-- The file that is written when the response is there. -/
def writes (response : Response) : Job → List (Bytes × Bytes)
  | .copyOut _ dst => [(dst, response.copyOutResponse.content)]
  | _ => []

end Job

/-- A job with its request. -/
structure Asked where
  job : Job
  request : Request
  source : Option (Bytes × Bytes)

/-- A job with its request and its response. -/
structure Exchange extends Asked where
  response : Response

def Asked.sent (a : Asked) : Request × Option (Bytes × Bytes) := (a.request, a.source)

namespace RemoteWorker

variable {codec : Codec} {p : Parameters} {files : Files}

/-! ### What a state stands for

The index counts the copies that have been passed in the list at hand, the skipped ones too,
so what remains of a list is what is wanted of it from the index on.  In a state that waits,
the copy at the index has been asked for and is not among what remains.
-/

/-- The in-copies that one pass over them makes; the frame is -1 in the first pass. -/
def passIns (frame : Int) (copies : List FileCopy) : List Job :=
  jobsOf (fun c => decide (0 ≤ frame) == c.hasParameter)
    (fun c => .copyIn (substituteParameter c.source frame)
      (substituteParameter c.destination frame))
    copies

def passOuts (frame : Int) (copies : List FileCopy) : List Job :=
  jobsOf (fun c => decide (0 ≤ frame) == c.hasParameter)
    (fun c => .copyOut (substituteParameter c.source frame)
      (substituteParameter c.destination frame))
    copies

theorem passIns_plain (copies : List FileCopy) : passIns (-1) copies = plainIns copies := by
  simp only [passIns, plainIns, jobsOf, substituteParameter_neg _ (show (-1 : Int) < 0 by decide)]
  congr 1
  refine List.filter_congr ?_
  intro c _
  cases c.hasParameter <;> rfl

theorem passIns_frame {frame : Int} (h : 0 ≤ frame) (copies : List FileCopy) :
    passIns frame copies = frameIns frame copies := by
  simp only [passIns, frameIns, jobsOf, decide_eq_true h]
  congr 1
  refine List.filter_congr ?_
  intro c _
  cases c.hasParameter <;> rfl

theorem passOuts_frame {frame : Int} (h : 0 ≤ frame) (copies : List FileCopy) :
    passOuts frame copies = frameOuts frame copies := by
  simp only [passOuts, frameOuts, jobsOf, decide_eq_true h]
  congr 1
  refine List.filter_congr ?_
  intro c _
  cases c.hasParameter <;> rfl

/-- A copy that is wanted is the first job of what remains. -/
theorem jobsOf_drop_wanted {wanted : FileCopy → Bool} {job : FileCopy → Job}
    {copies : List FileCopy} {n : Nat} {c : FileCopy} (hc : copies[n]? = some c)
    (hwanted : wanted c = true) :
    jobsOf wanted job (copies.drop n) = job c :: jobsOf wanted job (copies.drop (n + 1)) := by
  obtain ⟨hlt, rfl⟩ := List.getElem?_eq_some_iff.mp hc
  rw [List.drop_eq_getElem_cons hlt, jobsOf, List.filter_cons_of_pos hwanted]
  rfl

/-- A copy that is not is none of it. -/
theorem jobsOf_drop_unwanted {wanted : FileCopy → Bool} {job : FileCopy → Job}
    {copies : List FileCopy} {n : Nat} {c : FileCopy} (hc : copies[n]? = some c)
    (hwanted : wanted c ≠ true) :
    jobsOf wanted job (copies.drop n) = jobsOf wanted job (copies.drop (n + 1)) := by
  obtain ⟨hlt, rfl⟩ := List.getElem?_eq_some_iff.mp hc
  rw [List.drop_eq_getElem_cons hlt, jobsOf, List.filter_cons_of_neg hwanted]
  rfl

theorem jobsOf_drop_end {wanted : FileCopy → Bool} {job : FileCopy → Job}
    {copies : List FileCopy} {n : Nat} (h : copies[n]? = none) :
    jobsOf wanted job (copies.drop n) = [] := by
  rw [List.drop_of_length_le (List.getElem?_eq_none_iff.mp h)]
  rfl

/-- What comes after a pass over the in-copies. -/
def afterIns (p : Parameters) (w : RemoteWorker) : State → List Job
  | .sendCopyInFrameFile => executeJob p w.frame :: passOuts w.frame p.outCopies
  | _ => []

/-- The jobs whose requests are still to come. -/
def remaining (p : Parameters) (w : RemoteWorker) : List Job :=
  match w.state with
  | .sendWelcomeRequest => .welcome :: passIns (-1) p.inCopies
  | .receiveWelcomeResponse => passIns (-1) p.inCopies
  | .sendCopyInNonFrameFile =>
      passIns (-1) (p.inCopies.drop w.stateIndex) ++ afterIns p w .sendCopyInNonFrameFile
  | .receiveCopyInNonFrameFile =>
      passIns (-1) (p.inCopies.drop (w.stateIndex + 1)) ++ afterIns p w .sendCopyInNonFrameFile
  | .sendCopyInFrameFile =>
      passIns w.frame (p.inCopies.drop w.stateIndex) ++ afterIns p w .sendCopyInFrameFile
  | .receiveCopyInFrameFile =>
      passIns w.frame (p.inCopies.drop (w.stateIndex + 1)) ++ afterIns p w .sendCopyInFrameFile
  | .sendExecuteRequest => executeJob p w.frame :: passOuts w.frame p.outCopies
  | .receiveExecuteResponse => passOuts w.frame p.outCopies
  | .sendCopyOutFrameFile => passOuts w.frame (p.outCopies.drop w.stateIndex)
  | .receiveCopyOutFrameFile => passOuts w.frame (p.outCopies.drop (w.stateIndex + 1))
  | _ => []

/-- The job whose response the worker waits for. -/
def awaited (p : Parameters) (w : RemoteWorker) : Option Job :=
  match w.state with
  | .receiveWelcomeResponse => some .welcome
  | .receiveCopyInNonFrameFile =>
      (p.inCopies[w.stateIndex]?).map fun c =>
        .copyIn (substituteParameter c.source (-1)) (substituteParameter c.destination (-1))
  | .receiveCopyInFrameFile =>
      (p.inCopies[w.stateIndex]?).map fun c =>
        .copyIn (substituteParameter c.source w.frame) (substituteParameter c.destination w.frame)
  | .receiveExecuteResponse => some (executeJob p w.frame)
  | .receiveCopyOutFrameFile =>
      (p.outCopies[w.stateIndex]?).map fun c =>
        .copyOut (substituteParameter c.source w.frame) (substituteParameter c.destination w.frame)
  | _ => none

/-- In the state that sends, the copy at the index remains. -/
theorem InPass.remaining_send {w : RemoteWorker} {frame : Int} {send recv next : State}
    (hpass : InPass w frame send recv next) (hs : w.state = send) :
    remaining p w = passIns frame (p.inCopies.drop w.stateIndex) ++ afterIns p w send := by
  cases hpass <;> simp only [remaining, hs]

/-- In the state that waits, it has been asked for and does not. -/
theorem InPass.remaining_recv {w : RemoteWorker} {frame : Int} {send recv next : State}
    (hpass : InPass w frame send recv next) (hs : w.state = recv) :
    remaining p w = passIns frame (p.inCopies.drop (w.stateIndex + 1)) ++ afterIns p w send := by
  cases hpass <;> simp only [remaining, hs]

theorem InPass.remaining_next {w : RemoteWorker} {frame : Int} {send recv next : State}
    (hpass : InPass w frame send recv next) (hs : w.state = next) :
    remaining p w = afterIns p w send := by
  cases hpass <;> simp only [remaining, hs, afterIns]

theorem InPass.awaited_send {w : RemoteWorker} {frame : Int} {send recv next : State}
    (hpass : InPass w frame send recv next) (hs : w.state = send) : awaited p w = none := by
  cases hpass <;> simp only [awaited, hs]

theorem InPass.awaited_recv {w : RemoteWorker} {frame : Int} {send recv next : State}
    (hpass : InPass w frame send recv next) (hs : w.state = recv) :
    awaited p w = (p.inCopies[w.stateIndex]?).map fun c =>
      .copyIn (substituteParameter c.source frame) (substituteParameter c.destination frame) := by
  cases hpass <;> simp only [awaited, hs]

theorem InPass.awaited_next {w : RemoteWorker} {frame : Int} {send recv next : State}
    (hpass : InPass w frame send recv next) (hs : w.state = next) : awaited p w = none := by
  cases hpass <;> simp only [awaited, hs]

theorem InPass.expects {w : RemoteWorker} {frame : Int} {send recv next : State}
    (hpass : InPass w frame send recv next) :
    send.expects = none ∧ recv.expects = some .copyIn ∧ next.expects = none := by
  cases hpass <;> exact ⟨rfl, rfl, rfl⟩

/-- A pass is the same for a worker on the same frame. -/
theorem InPass.of_frame {w : RemoteWorker} {frame : Int} {send recv next : State}
    (hpass : InPass w frame send recv next) (w' : RemoteWorker) (hframe : w'.frame = w.frame) :
    InPass w' frame send recv next := by
  cases hpass with
  | nonFrame => exact .nonFrame
  | frame => exact hframe ▸ .frame

/-! ### The log of a session -/

/-- What has been done, what is awaited and what remains make up the script. -/
structure Logged (p : Parameters) (w : RemoteWorker) (log : List Exchange)
    (pending : Option Asked) : Prop where
  script : script p w.framesGiven
    = log.map (fun x => x.job) ++ (pending.map Asked.job).toList ++ remaining p w
  requests : w.requests = log.map (fun x => x.sent) ++ (pending.map Asked.sent).toList
  responses : w.responses = log.map Exchange.response
  written : w.written = log.flatMap fun x => x.job.writes x.response
  asks : ∀ x ∈ log, x.job.Asks x.request x.source
  asks_pending : ∀ a, pending = some a → a.job.Asks a.request a.source
  answers : ∀ x ∈ log, x.job.Answers x.response
  awaits : pending.map Asked.job = awaited p w
  expects : (pending.map fun a => a.job.type) = w.state.expects

/--
The same for a part of a session: the jobs done since `past` was all there was, the one
that is awaited and the ones that remain make up a plan.
-/
structure LoggedSince (p : Parameters) (plan : List Job) (past : List Event) (w : RemoteWorker)
    (log : List Exchange) (pending : Option Asked) : Prop where
  plan : plan = log.map (fun x => x.job) ++ (pending.map Asked.job).toList ++ remaining p w
  requests : w.requests = Event.history Event.request? past
    ++ (log.map (fun x => x.sent) ++ (pending.map Asked.sent).toList)
  responses : w.responses = Event.history Event.response? past ++ log.map Exchange.response
  written : w.written = Event.history Event.write? past
    ++ log.flatMap fun x => x.job.writes x.response
  asks : ∀ x ∈ log, x.job.Asks x.request x.source
  asks_pending : ∀ a, pending = some a → a.job.Asks a.request a.source
  answers : ∀ x ∈ log, x.job.Answers x.response
  awaits : pending.map Asked.job = awaited p w
  expects : (pending.map fun a => a.job.type) = w.state.expects

theorem logged_iff {w : RemoteWorker} {log : List Exchange} {pending : Option Asked} :
    Logged p w log pending ↔ LoggedSince p (Distray.script p w.framesGiven) [] w log pending := by
  constructor
  · rintro ⟨h₁, h₂, h₃, h₄, h₅, h₆, h₇, h₈, h₉⟩
    exact ⟨h₁, h₂, h₃, h₄, h₅, h₆, h₇, h₈, h₉⟩
  · rintro ⟨h₁, h₂, h₃, h₄, h₅, h₆, h₇, h₈, h₉⟩
    exact ⟨h₁, h₂, h₃, h₄, h₅, h₆, h₇, h₈, h₉⟩

variable {plan : List Job} {past : List Event}

/-- A turn that sends nothing and hears nothing. -/
theorem LoggedSince.silent {w w' : RemoteWorker} {log : List Exchange} {pending : Option Asked}
    (h : LoggedSince p plan past w log pending) (htrace : w'.trace = w.trace)
    (hremaining : remaining p w' = remaining p w) (hawaited : awaited p w' = awaited p w)
    (hexpects : w'.state.expects = w.state.expects) :
    LoggedSince p plan past w' log pending := by
  refine ⟨?_, ?_, ?_, ?_, h.asks, h.asks_pending, h.answers, by rw [hawaited, h.awaits],
    by rw [hexpects, h.expects]⟩
  · rw [hremaining]
    exact h.plan
  · rw [RemoteWorker.requests, htrace]
    exact h.requests
  · rw [RemoteWorker.responses, htrace]
    exact h.responses
  · rw [RemoteWorker.written, htrace]
    exact h.written

/-- A turn that sends the request for the first job of what remains. -/
theorem LoggedSince.sent {w : RemoteWorker} {log : List Exchange}
    (h : LoggedSince p plan past w log none) {request : Request} {source : Option (Bytes × Bytes)}
    {next : State} (job : Job) (hasks : job.Asks request source)
    (hremaining : remaining p w
      = job :: remaining p (w.sendRequest codec request source next))
    (hawaited : awaited p (w.sendRequest codec request source next) = some job)
    (hexpects : next.expects = some job.type) :
    LoggedSince p plan past (w.sendRequest codec request source next) log
      (some ⟨job, request, source⟩) := by
  have htrace : (w.sendRequest codec request source next).trace
      = .setMessage request source w.outgoingBuffer.needSend
        :: .reset w.incomingBuffer.partly :: w.trace := rfl
  refine ⟨?_, ?_, ?_, ?_, h.asks, ?_, h.answers, hawaited.symm, hexpects.symm⟩
  · have hplan := h.plan
    rw [hremaining] at hplan
    simpa using hplan
  · have hrequests := h.requests
    simp only [RemoteWorker.requests] at hrequests
    simp [RemoteWorker.requests, htrace, hrequests, Asked.sent]
  · simpa [RemoteWorker.responses, htrace] using h.responses
  · simpa [RemoteWorker.written, htrace] using h.written
  · intro a ha
    rw [Option.some.injEq] at ha
    exact ha ▸ hasks

/-- A turn that takes the response to the job awaited. -/
theorem LoggedSince.answered {w w' : RemoteWorker} {log : List Exchange} {a : Asked}
    (h : LoggedSince p plan past w log (some a)) {r : Response} (hanswers : a.job.Answers r)
    (htrace : ∃ new, w'.trace = new ++ .reset w.incomingBuffer.partly :: .response r :: w.trace ∧
      Event.history Event.request? new = [] ∧ Event.history Event.response? new = [] ∧
      Event.history Event.write? new = a.job.writes r)
    (hremaining : remaining p w' = remaining p w) (hawaited : awaited p w' = none)
    (hexpects : w'.state.expects = none) :
    LoggedSince p plan past w' (log ++ [⟨a, r⟩]) none := by
  obtain ⟨new, htrace, hreq, hresp, hwrite⟩ := htrace
  refine ⟨?_, ?_, ?_, ?_, ?_, by simp, ?_, hawaited.symm, hexpects.symm⟩
  · have hplan := h.plan
    rw [← hremaining] at hplan
    simpa using hplan
  · simpa [RemoteWorker.requests, htrace, hreq] using h.requests
  · have hresponses := h.responses
    simp only [RemoteWorker.responses] at hresponses
    simp [RemoteWorker.responses, htrace, hresp, hresponses]
  · have hwritten := h.written
    simp only [RemoteWorker.written] at hwritten
    simp [RemoteWorker.written, htrace, hwrite, hwritten]
  · intro x hx
    rcases List.mem_append.mp hx with hx | hx
    · exact h.asks x hx
    · rw [List.mem_singleton] at hx
      exact hx ▸ h.asks_pending a rfl
  · intro x hx
    rcases List.mem_append.mp hx with hx | hx
    · exact h.answers x hx
    · rw [List.mem_singleton] at hx
      exact hx ▸ hanswers

theorem LoggedSince.pending_none {w : RemoteWorker} {log : List Exchange}
    {pending : Option Asked} (h : LoggedSince p plan past w log pending)
    (hs : w.state.expects = none) : pending = none := by
  have hexpects := h.expects
  rw [hs] at hexpects
  simpa using hexpects

theorem LoggedSince.pending_some {w : RemoteWorker} {log : List Exchange}
    {pending : Option Asked} (h : LoggedSince p plan past w log pending) {t : RequestType}
    (hs : w.state.expects = some t) : ∃ a, pending = some a ∧ awaited p w = some a.job := by
  have hexpects := h.expects
  rw [hs] at hexpects
  obtain ⟨a, ha, -⟩ := Option.map_eq_some_iff.mp hexpects
  refine ⟨a, ha, ?_⟩
  rw [← h.awaits, ha]
  rfl

/-- A worker at rest is idle exactly when nothing is pending and nothing remains. -/
theorem LoggedSince.idle_iff {w : RemoteWorker} {log : List Exchange} {pending : Option Asked}
    (h : LoggedSince p plan past w log pending)
    (hrests : w.isIdle = true ∨ ∃ t, w.state.expects = some t) :
    w.isIdle = true ↔ pending = none ∧ remaining p w = [] := by
  constructor
  · intro hidle
    have hs : w.state = .idle := by simpa [isIdle] using hidle
    exact ⟨h.pending_none (by rw [hs]; rfl), by simp only [remaining, hs]⟩
  · rintro ⟨rfl, -⟩
    refine hrests.resolve_right ?_
    rintro ⟨t, ht⟩
    obtain ⟨a, ha, -⟩ := h.pending_some ht
    exact absurd ha (by simp)

/-- The response to the job awaited, whichever it is. -/
theorem LoggedSince.taken {w w' : RemoteWorker} {log : List Exchange} {pending : Option Asked}
    (h : LoggedSince p plan past w log pending) (job : Job) {r : Response}
    (hjob : awaited p w = some job) (hwaits : w.state.expects = some job.type)
    (hanswers : job.Answers r)
    (htrace : ∃ new, w'.trace = new ++ .reset w.incomingBuffer.partly :: .response r :: w.trace ∧
      Event.history Event.request? new = [] ∧ Event.history Event.response? new = [] ∧
      Event.history Event.write? new = job.writes r)
    (hremaining : remaining p w' = remaining p w) (hawaited : awaited p w' = none)
    (hexpects : w'.state.expects = none) :
    ∃ log pending, LoggedSince p plan past w' log pending := by
  obtain ⟨a, rfl, ha⟩ := h.pending_some hwaits
  have hsame : job = a.job := Option.some.inj (hjob.symm.trans ha)
  subst hsame
  exact ⟨_, _, h.answered hanswers htrace hremaining hawaited hexpects⟩

private theorem logged_inSent {w : RemoteWorker} {frame : Int} {send recv next : State}
    {c : FileCopy} {content : Bytes} {log : List Exchange} {pending : Option Asked}
    (hlog : LoggedSince p plan past w log pending) (hpass : InPass w frame send recv next)
    (hs : w.state = send) (hcopy : p.inCopies[w.stateIndex]? = some c)
    (hmatch : decide (0 ≤ frame) = c.hasParameter) :
    ∃ log pending, LoggedSince p plan past
      (w.sendRequest codec (copyInRequest (substituteParameter c.destination frame) content)
        (some (substituteParameter c.source frame, content)) recv) log pending := by
  have hwanted : (decide (0 ≤ frame) == c.hasParameter) = true := by simp [hmatch]
  have hlater := hpass.of_frame (w.sendRequest codec
    (copyInRequest (substituteParameter c.destination frame) content)
    (some (substituteParameter c.source frame, content)) recv) rfl
  obtain rfl := hlog.pending_none (hs ▸ hpass.expects.1)
  refine ⟨_, _, hlog.sent (.copyIn (substituteParameter c.source frame)
    (substituteParameter c.destination frame)) ⟨content, rfl, rfl⟩ ?_ ?_ hpass.expects.2.1⟩
  · rw [hpass.remaining_send hs, hlater.remaining_recv rfl, passIns,
      jobsOf_drop_wanted hcopy hwanted]
    rfl
  · rw [hlater.awaited_recv rfl]
    simp [sendRequest, hcopy]

private theorem logged_inSkipped {w : RemoteWorker} {frame : Int} {send recv next : State}
    {c : FileCopy} {log : List Exchange} {pending : Option Asked}
    (hlog : LoggedSince p plan past w log pending) (hpass : InPass w frame send recv next)
    (hs : w.state = send) (hcopy : p.inCopies[w.stateIndex]? = some c)
    (hmatch : decide (0 ≤ frame) ≠ c.hasParameter) :
    LoggedSince p plan past { w with stateIndex := w.stateIndex + 1 } log pending := by
  have hwanted : (decide (0 ≤ frame) == c.hasParameter) ≠ true := by simpa using hmatch
  have hlater := hpass.of_frame { w with stateIndex := w.stateIndex + 1 } rfl
  refine hlog.silent rfl ?_ ?_ rfl
  · rw [hpass.remaining_send hs, hlater.remaining_send hs, passIns, passIns,
      jobsOf_drop_unwanted hcopy hwanted]
    rfl
  · rw [hpass.awaited_send hs, hlater.awaited_send hs]

private theorem logged_inFinished {w : RemoteWorker} {frame : Int} {send recv next : State}
    {log : List Exchange} {pending : Option Asked}
    (hlog : LoggedSince p plan past w log pending) (hpass : InPass w frame send recv next)
    (hs : w.state = send) (hend : p.inCopies[w.stateIndex]? = none) :
    LoggedSince p plan past { w with state := next } log pending := by
  have hlater := hpass.of_frame { w with state := next } rfl
  refine hlog.silent rfl ?_ ?_ ?_
  · rw [hpass.remaining_send hs, hlater.remaining_next rfl, passIns, jobsOf_drop_end hend]
    rfl
  · rw [hpass.awaited_send hs, hlater.awaited_next rfl]
  · rw [hs, hpass.expects.1, hpass.expects.2.2]

private theorem logged_inReceived {w : RemoteWorker} {frame : Int} {send recv next : State}
    {r : Response} {log : List Exchange} {pending : Option Asked}
    (hlog : LoggedSince p plan past w log pending) (hpass : InPass w frame send recv next)
    (hs : w.state = recv) (htype : r.requestType = .copyIn)
    (hsuccess : r.copyInResponse.success = true) :
    ∃ log pending, LoggedSince p plan past
      { w.decoded r with stateIndex := w.stateIndex + 1, state := send } log pending := by
  obtain ⟨a, rfl, ha⟩ := hlog.pending_some (hs ▸ hpass.expects.2.1)
  rw [hpass.awaited_recv hs] at ha
  obtain ⟨c, -, ha⟩ := Option.map_eq_some_iff.mp ha
  have hlater := hpass.of_frame
    { w.decoded r with stateIndex := w.stateIndex + 1, state := send } rfl
  have hwrites : a.job.writes r = [] := by rw [← ha]; rfl
  refine ⟨_, _, hlog.answered (r := r) (ha ▸ ⟨htype, hsuccess⟩)
    ⟨[], rfl, rfl, rfl, hwrites.symm⟩ ?_ ?_ hpass.expects.1⟩
  · rw [hpass.remaining_recv hs, hlater.remaining_send rfl]
    rfl
  · exact hlater.awaited_send rfl

private theorem logged_outSent {w : RemoteWorker} {c : FileCopy} {log : List Exchange}
    {pending : Option Asked} (hlog : LoggedSince p plan past w log pending)
    (hs : w.state = .sendCopyOutFrameFile) (hcopy : p.outCopies[w.stateIndex]? = some c)
    (hmatch : decide (0 ≤ w.frame) = c.hasParameter) :
    ∃ log pending, LoggedSince p plan past
      (w.sendRequest codec (copyOutRequest (substituteParameter c.source w.frame)) none
        .receiveCopyOutFrameFile) log pending := by
  have hwanted : (decide (0 ≤ w.frame) == c.hasParameter) = true := by simp [hmatch]
  obtain rfl := hlog.pending_none (by rw [hs]; rfl)
  refine ⟨_, _, hlog.sent (.copyOut (substituteParameter c.source w.frame)
    (substituteParameter c.destination w.frame)) ⟨rfl, rfl⟩ ?_ ?_ rfl⟩
  · simp only [remaining, hs, sendRequest]
    rw [passOuts, jobsOf_drop_wanted hcopy hwanted]
    rfl
  · simp [awaited, sendRequest, hcopy]

private theorem logged_outReceived {w : RemoteWorker} {r : Response} {c : FileCopy}
    {log : List Exchange} {pending : Option Asked}
    (hlog : LoggedSince p plan past w log pending) (hs : w.state = .receiveCopyOutFrameFile)
    (htype : r.requestType = .copyOut) (hcopy : p.outCopies[w.stateIndex]? = some c)
    (hsuccess : r.copyOutResponse.success = true) (stored : Option Bytes) :
    ∃ log pending, LoggedSince p plan past { w.decoded r with
      trace := .writeFile (substituteParameter c.destination w.frame) r.copyOutResponse.content
          stored :: (w.decoded r).trace
      stateIndex := w.stateIndex + 1
      state := .sendCopyOutFrameFile } log pending := by
  refine hlog.taken (.copyOut (substituteParameter c.source w.frame)
    (substituteParameter c.destination w.frame)) ?_ (hs ▸ rfl) ⟨htype, hsuccess⟩
    ⟨[.writeFile (substituteParameter c.destination w.frame) r.copyOutResponse.content stored],
      rfl, rfl, rfl, rfl⟩ ?_ rfl rfl
  · simp only [awaited, hs, hcopy, Option.map_some]
  · simp only [remaining, hs, decoded]

/-- **A turn follows the plan.** -/
theorem Turn.logged {w w' : RemoteWorker} (h : Turn codec p files w w')
    (hw : ∃ log pending, LoggedSince p plan past w log pending) :
    ∃ log pending, LoggedSince p plan past w' log pending := by
  obtain ⟨log, pending, hlog⟩ := hw
  cases h with
  | sendWelcome hs =>
      obtain rfl := hlog.pending_none (by rw [hs]; rfl)
      exact ⟨_, _, hlog.sent .welcome ⟨rfl, rfl⟩ (by simp only [remaining, hs, sendRequest])
        rfl rfl⟩
  | @welcomed r hs hparse htype =>
      refine hlog.taken .welcome ?_ (hs ▸ rfl) ⟨htype, trivial⟩
        ⟨[], rfl, rfl, rfl, rfl⟩ ?_ rfl rfl
      · simp only [awaited, hs]
      · simp only [remaining, hs, List.drop_zero, afterIns, List.append_nil]
  | inSent hpass hs hcopy hmatch => exact logged_inSent hlog hpass hs hcopy hmatch
  | inSkipped hpass hs hcopy hmatch =>
      exact ⟨_, _, logged_inSkipped hlog hpass hs hcopy hmatch⟩
  | inFinished hpass hs hend => exact ⟨_, _, logged_inFinished hlog hpass hs hend⟩
  | inReceived hpass hs hparse htype hsuccess =>
      exact logged_inReceived hlog hpass hs htype hsuccess
  | sendExecute hs =>
      obtain rfl := hlog.pending_none (by rw [hs]; rfl)
      exact ⟨_, _, hlog.sent (executeJob p w.frame) ⟨rfl, rfl⟩
        (by simp only [remaining, hs, sendRequest]) rfl rfl⟩
  | @executed r hs hparse htype hstatus =>
      refine hlog.taken (executeJob p w.frame) ?_ (hs ▸ rfl) ⟨htype, hstatus⟩
        ⟨[], rfl, rfl, rfl, rfl⟩ ?_ rfl rfl
      · simp only [awaited, hs]
      · simp only [remaining, hs, List.drop_zero, decoded]
  | outSent hs hcopy hmatch => exact logged_outSent hlog hs hcopy hmatch
  | @outSkipped c hs hcopy hmatch =>
      have hwanted : (decide (0 ≤ w.frame) == c.hasParameter) ≠ true := by simpa using hmatch
      refine ⟨_, _, hlog.silent rfl ?_ ?_ rfl⟩
      · simp only [remaining, hs]
        rw [passOuts, passOuts, jobsOf_drop_unwanted hcopy hwanted]
      · simp [awaited, hs]
  | outFinished hs hend =>
      refine ⟨_, _, hlog.silent rfl ?_ ?_ ?_⟩
      · simp only [remaining, hs]
        rw [passOuts, jobsOf_drop_end hend]
      · simp [awaited, hs]
      · rw [hs]
        rfl
  | outReceived hs hparse htype hcopy hsuccess hwrite =>
      exact logged_outReceived hlog hs htype hcopy hsuccess _
  | unimplemented hs => exact ⟨log, pending, hlog⟩

theorem Turn.framesGiven {w w' : RemoteWorker} (h : Turn codec p files w w') :
    w'.framesGiven = w.framesGiven := by
  cases h <;> simp [RemoteWorker.framesGiven, sendRequest, decoded]

/-- A session with a log. -/
def HasLog (p : Parameters) (w : RemoteWorker) : Prop := ∃ log pending, Logged p w log pending

theorem Turn.hasLog {w w' : RemoteWorker} (h : Turn codec p files w w') (hw : HasLog p w) :
    HasLog p w' := by
  obtain ⟨log, pending, hlog⟩ := hw
  obtain ⟨log', pending', hlog'⟩ := h.logged ⟨log, pending, logged_iff.mp hlog⟩
  rw [← h.framesGiven] at hlog'
  exact ⟨log', pending', logged_iff.mpr hlog'⟩

theorem dispatch_hasLog {w w' : RemoteWorker} (h : w.dispatch codec p files = .ok w')
    (hw : HasLog p w) : HasLog p w' :=
  dispatch_invariant (fun _ _ hw hturn => hturn.hasLog hw) h hw

theorem hasLog_buffers {w : RemoteWorker} (h : HasLog p w) (b : IncomingBuffer)
    (b' : OutgoingBuffer) : HasLog p { w with incomingBuffer := b, outgoingBuffer := b' } := by
  obtain ⟨log, pending, hlog⟩ := h
  exact ⟨log, pending, logged_iff.mpr ((logged_iff.mp hlog).silent rfl rfl rfl rfl)⟩

theorem hasLog_make (addr : Nat) (fd : Int) : HasLog p (make addr fd) := by
  refine ⟨[], none, ?_, rfl, rfl, rfl, by simp, by simp, by simp, rfl, rfl⟩
  simp [Distray.script, remaining, make, framesGiven, Event.history, passIns_plain]

theorem remaining_given (w : RemoteWorker) {frame : Int} (hframe : 0 ≤ frame) :
    remaining p (w.given frame) = frameScript p frame := by
  simp only [remaining, given, List.drop_zero, afterIns, frameScript]
  rw [passIns_frame hframe, passOuts_frame hframe]

/-- A frame handed to an idle worker adds its part to the script. -/
theorem hasLog_given {w : RemoteWorker} (h : HasLog p w) (hidle : w.isIdle = true) {frame : Int}
    (hframe : 0 ≤ frame) : HasLog p (w.given frame) := by
  obtain ⟨log, pending, hlog⟩ := h
  have hs : w.state = .idle := by simpa [isIdle] using hidle
  obtain rfl := (logged_iff.mp hlog).pending_none (by rw [hs]; rfl)
  refine ⟨log, none, ?_, ?_, ?_, ?_, hlog.asks, by simp, hlog.answers, rfl, rfl⟩
  · have hscript := hlog.script
    have hold : remaining p w = [] := by simp only [remaining, hs]
    rw [remaining_given w hframe]
    rw [hold] at hscript
    simp only [framesGiven, given, Event.history_cons, Event.frame?, Option.toList_some,
      Distray.script, List.flatMap_append, List.flatMap_singleton] at hscript ⊢
    rw [← List.append_assoc, hscript]
    simp
  · simpa [RemoteWorker.requests, given] using hlog.requests
  · simpa [RemoteWorker.responses, given] using hlog.responses
  · simpa [RemoteWorker.written, given] using hlog.written

/-! ### Nothing stops a session that goes well

A call that is answered as it should be returns, and the next one can be made.  Without this
the script might be followed only because every session stops.
-/

/-- Every file operation succeeds. -/
structure Obliging (files : Files) : Prop where
  reads : ∀ pathname, readFile files pathname ≠ none
  writes : ∀ pathname content, writeFile files pathname content = true

theorem expects_of_awaited {w : RemoteWorker} {job : Job} (h : awaited p w = some job) :
    w.state.expects = some job.type := by
  unfold awaited at h
  split at h
  case h_1 hs => rw [Option.some.injEq] at h; rw [hs, ← h]; rfl
  case h_2 hs => obtain ⟨c, -, rfl⟩ := Option.map_eq_some_iff.mp h; rw [hs]; rfl
  case h_3 hs => obtain ⟨c, -, rfl⟩ := Option.map_eq_some_iff.mp h; rw [hs]; rfl
  case h_4 hs => rw [Option.some.injEq] at h; rw [hs, ← h]; rfl
  case h_5 hs => obtain ⟨c, -, rfl⟩ := Option.map_eq_some_iff.mp h; rw [hs]; rfl
  case h_6 => exact absurd h (by simp)

/--
`dispatch` returns when it starts with something to send, or with a good response to
the job that is awaited.
-/
theorem dispatch_returns {w : RemoteWorker} (hphased : w.Phased p) (hfiles : Obliging files)
    (hfirst : w.state.immediate = true ∨ ∃ job r, awaited p w = some job ∧
      codec.parseResponse w.incomingBuffer.getMessage = some r ∧ job.Answers r) :
    ∃ w', w.dispatch codec p files = .ok w' := by
  have hne : w.state ≠ .sendCopyOutNonFrameFile := by
    intro hs
    simp [Phased, hs] at hphased
  by_contra hno
  have hok : ∀ w', w.dispatch codec p files ≠ .ok w' := fun w' hw' => hno ⟨w', hw'⟩
  obtain ⟨w₁, hphased₁, hstops, hwhere⟩ := dispatch_stops (P := Phased p)
    (fun _ _ hw hturn => hturn.phased hw) rfl hok (dispatch_ne_hang hne) hphased
  -- a turn that waits for a response is the first one, and it has a good one
  have hgood : ∀ {t r}, w₁.state.expects = some t →
      codec.parseResponse w₁.incomingBuffer.getMessage = some r →
      ∃ job : Job, job.type = t ∧ job.Answers r := by
    intro t r ht hparse
    have himm : w₁.state.immediate ≠ true := by
      intro himm
      rw [expects_of_immediate himm] at ht
      exact absurd ht (by simp)
    obtain rfl := hwhere.resolve_right himm
    obtain ⟨job, r', hawaited, hparse', hanswers⟩ := hfirst.resolve_left himm
    rw [expects_of_awaited hawaited, Option.some.injEq] at ht
    rw [hparse, Option.some.injEq] at hparse'
    exact ⟨job, ht, hparse' ▸ hanswers⟩
  generalize w.dispatch codec p files = o at hstops
  cases hstops with
  | dispatchedIdle hs =>
      have himm : w₁.state.immediate ≠ true := by simp [hs, State.immediate]
      obtain rfl := hwhere.resolve_right himm
      obtain ⟨job, r, hawaited, -⟩ := hfirst.resolve_left himm
      simp [awaited, hs] at hawaited
  | unreadable _ _ _ _ hread => exact hfiles.reads _ hread
  | undecodable ht hparse =>
      have himm : w₁.state.immediate ≠ true := by
        intro himm
        rw [expects_of_immediate himm] at ht
        exact absurd ht (by simp)
      obtain rfl := hwhere.resolve_right himm
      obtain ⟨job, r, -, hparse', -⟩ := hfirst.resolve_left himm
      exact absurd (hparse.symm.trans hparse') (by simp)
  | unexpectedType ht hparse htype =>
      obtain ⟨job, rfl, hanswers⟩ := hgood ht hparse
      exact htype hanswers.1
  | copyInFailed hpass hs hparse _ hfail =>
      obtain ⟨job, ht, hanswers⟩ := hgood (t := .copyIn) (by cases hpass <;> rw [hs] <;> rfl) hparse
      exact absurd (hfail.symm.trans (hanswers.copyIn ht)) (by simp)
  | executeFailed hs hparse _ hstatus =>
      obtain ⟨job, ht, hanswers⟩ := hgood (t := .execute) (by rw [hs]; rfl) hparse
      exact hstatus (hanswers.execute ht)
  | copyOutFailed hs hparse _ _ hfail =>
      obtain ⟨job, ht, hanswers⟩ := hgood (t := .copyOut) (by rw [hs]; rfl) hparse
      rcases hfail with hfail | hfail
      · exact absurd (hfail.symm.trans (hanswers.copyOut ht)) (by simp)
      · exact absurd (hfail.symm.trans (hfiles.writes _ _)) (by simp)
  | pastTheEnd hs _ _ hend =>
      simp only [Phased, hs] at hphased₁
      obtain ⟨-, c, hc, -⟩ := hphased₁
      exact absurd (hend.symm.trans hc) (by simp)

end RemoteWorker

end Distray
