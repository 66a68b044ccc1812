/-
Which numbers of a range are frames.

`Frames::parse` takes any `int` for either end, and `get_all` goes from one end to the
other, below zero if that is where it leads.  The code that is given the numbers keeps
some of them for itself: -1 is the frame of a worker that has none, which is what
`kill_worker` asks about, and a copy belongs to a frame if its number is not negative,
which is also when parameters are substituted.

What is to be done for a frame is written down here for every number (`frameJobs`), and so
is what the code does for it (`askedJobs`).  A worker that is given a number always follows
the latter.  The two are the same for a number that is not negative; below zero they are
the same only where there is nothing to copy and nothing to substitute, and then -1 is
still lost with the worker that has it.  To see that nothing else will do, a worker is
taken through a frame: it is made idle, given the number, and answered.
-/
import Distray.Proofs.Answering
import Distray.Proofs.Delivery
import Distray.Proofs.Scanning
import Distray.Proofs.Workers

namespace Distray

/-! ### What is to be done for a number -/

/-- A number in decimal, as a stream prints it with a width and zeros for filling. -/
def numeral (value width : Int) : Bytes :=
  let sign := if value < 0 then ['-'.toUInt8] else []
  let text := sign ++ (Nat.toDigits 10 value.natAbs).map Char.toUInt8
  List.replicate (width.toNat - text.length) '0'.toUInt8 ++ text

/-- A string with every parameter in it replaced by a number. -/
def withNumber (value : Int) (str : Bytes) : Bytes :=
  match _ : findParameter str with
  | some q => str.take q.first ++ numeral value q.width ++ withNumber value (str.drop q.last)
  | none => str
termination_by str.length
decreasing_by
  have hb := findParameter_bounds ‹_›
  rw [List.length_drop]
  omega

/--
The jobs for a frame: the in-copies with a parameter, the renderer, and the out-copies
with a parameter, all with the number in the place of the parameter.
-/
def frameJobs (p : Parameters) (frame : Int) : List Job :=
  jobsOf FileCopy.hasParameter
      (fun c => .copyIn (withNumber frame c.source) (withNumber frame c.destination)) p.inCopies
    ++ .execute p.executable (p.arguments.map (withNumber frame))
    :: jobsOf FileCopy.hasParameter
      (fun c => .copyOut (withNumber frame c.source) (withNumber frame c.destination)) p.outCopies

theorem numeral_of_nonneg {value : Int} (h : 0 ≤ value) (width : Int) :
    numeral value width = padded value.toNat width := by
  have hsign : ¬ value < 0 := by omega
  have habs : value.natAbs = value.toNat := by omega
  simp only [numeral, padded, hsign, if_false, habs, List.nil_append]
  by_cases hwidth : width = 0
  · rw [if_pos hwidth, hwidth]
    simp
  · rw [if_neg hwidth]

theorem withNumber_of_some {value : Int} {str : Bytes} {q : Parameter}
    (h : findParameter str = some q) :
    withNumber value str
      = str.take q.first ++ numeral value q.width ++ withNumber value (str.drop q.last) := by
  rw [withNumber]
  split
  · rename_i q' hq'
    rw [h, Option.some.injEq] at hq'
    rw [hq']
  · rename_i hnone
    rw [h] at hnone
    exact absurd hnone (by simp)

theorem withNumber_of_none {value : Int} {str : Bytes} (h : findParameter str = none) :
    withNumber value str = str := by
  rw [withNumber]
  split
  · rename_i q hq
    rw [h] at hq
    exact absurd hq (by simp)
  · rfl

/-- A number that is not negative is put in the place of every parameter. -/
theorem substituteParameter_of_nonneg {value : Int} (h : 0 ≤ value) (str : Bytes) :
    substituteParameter str value = withNumber value str := by
  induction str using withNumber.induct with
  | case1 str q hq ih =>
      rw [substituteParameter_eq, if_pos h, withNumber_of_some hq, numeral_of_nonneg h, ← ih, hq]
  | case2 str hq => rw [substituteParameter_eq, if_pos h, withNumber_of_none hq, hq]

theorem percent_of_findParameter {str : Bytes} {q : Parameter} (h : findParameter str = some q) :
    str[q.first]? = some '%'.toUInt8 := by
  have hscan := first_scan (cStr str) 0
  unfold findParameter at h
  rw [findParameterFrom_eq_scan _ _ _ (by omega)] at h
  rw [h] at hscan
  cases hscan with
  | some _ _ hhere =>
      obtain ⟨hlt, hget⟩ := List.getElem?_eq_some_iff.mp (hhere.getElem? marked_isParameter)
      have hbegins : cStr str <+: str := List.takeWhile_prefix _
      exact List.getElem?_eq_some_iff.mpr
        ⟨hlt.trans_le hbegins.length_le, (hbegins.getElem hlt).symm.trans hget⟩

theorem head_numeral {value : Int} (h : value < 0) (width : Int) (rest : Bytes) :
    (numeral value width ++ rest)[0]? ≠ some '%'.toUInt8 := by
  have htext : numeral value width = List.replicate
      (width.toNat - ('-'.toUInt8 :: (Nat.toDigits 10 value.natAbs).map Char.toUInt8).length)
      '0'.toUInt8 ++ '-'.toUInt8 :: (Nat.toDigits 10 value.natAbs).map Char.toUInt8 := by
    simp only [numeral, if_pos h, List.singleton_append]
  rw [htext]
  generalize width.toNat - _ = zeros
  cases zeros with
  | zero =>
      show some '-'.toUInt8 ≠ some '%'.toUInt8
      decide
  | succ zeros =>
      show some '0'.toUInt8 ≠ some '%'.toUInt8
      decide

/-- **Nothing is put in the place of a parameter that is not there**, and only then. -/
theorem withNumber_eq_self_iff {value : Int} (h : value < 0) (str : Bytes) :
    withNumber value str = str ↔ stringHasParameter str = false := by
  unfold stringHasParameter
  cases hq : findParameter str with
  | none => simp [withNumber_of_none hq]
  | some q =>
      refine iff_of_false ?_ (by simp)
      intro hsame
      have hpercent := percent_of_findParameter hq
      have hlen : (str.take q.first).length = q.first := by
        have hb := findParameter_bounds hq
        rw [List.length_take]
        omega
      rw [← hsame, withNumber_of_some hq, List.append_assoc,
        List.getElem?_append_right (Nat.le_of_eq hlen), hlen, Nat.sub_self] at hpercent
      exact head_numeral h _ _ hpercent

/-- What the code does for a number: it makes the copies whose kind goes with its sign. -/
def askedJobs (p : Parameters) (frame : Int) : List Job :=
  RemoteWorker.passIns frame p.inCopies ++ executeJob p frame ::
    RemoteWorker.passOuts frame p.outCopies

/-- For a number that is not negative, that is what is to be done. -/
theorem askedJobs_of_nonneg (p : Parameters) {frame : Int} (h : 0 ≤ frame) :
    askedJobs p frame = frameJobs p frame := by
  rw [askedJobs, RemoteWorker.passIns_frame h, RemoteWorker.passOuts_frame h]
  simp only [frameJobs, frameIns, frameOuts, executeJob, substituteParameter_of_nonneg h]

/-- The code treats the number as a frame: what goes wrong below zero does not matter. -/
def FrameNumber (p : Parameters) (frame : Int) : Prop :=
  0 ≤ frame ∨ frame ≠ -1 ∧ p.inCopies = [] ∧ p.outCopies = [] ∧
    ∀ argument ∈ p.arguments, stringHasParameter argument = false

instance (p : Parameters) (frame : Int) : Decidable (FrameNumber p frame) :=
  inferInstanceAs (Decidable (_ ∨ _ ∧ _ ∧ _ ∧ _))

theorem FrameNumber.askedJobs {p : Parameters} {frame : Int} (h : FrameNumber p frame) :
    askedJobs p frame = frameJobs p frame := by
  by_cases hframe : 0 ≤ frame
  · exact askedJobs_of_nonneg p hframe
  · obtain ⟨-, hins, houts, hplain⟩ := h.resolve_left hframe
    have hneg : frame < 0 := by omega
    have harguments : p.arguments.map (fun argument => substituteParameter argument frame)
        = p.arguments.map (withNumber frame) := by
      refine List.map_congr_left ?_
      intro argument hargument
      rw [substituteParameter_neg _ hneg,
        (withNumber_eq_self_iff hneg argument).mpr (hplain argument hargument)]
    rw [Distray.askedJobs, frameJobs, hins, houts, executeJob, harguments]
    rfl

/-! ### The requests of a worker on a frame -/

namespace Session

open RemoteWorker

variable {codec : Codec} {p : Parameters}

/--
What a worker has asked for since `w`: the first of the jobs, in order, all but the last
of them answered, each file that came out written to its destination, and all of the jobs
once it is idle.
-/
def AskedFor (jobs : List Job) (w w' : RemoteWorker) : Prop :=
  ∃ (log : List Exchange) (pending : Option Asked) (rest : List Job),
    jobs = log.map (fun x => x.job) ++ (pending.map Asked.job).toList ++ rest ∧
    w'.requests
      = w.requests ++ (log.map (fun x => x.sent) ++ (pending.map Asked.sent).toList) ∧
    (∀ x ∈ log, x.job.Asks x.request x.source ∧ x.job.Answers x.response) ∧
    (∀ a, pending = some a → a.job.Asks a.request a.source) ∧
    w'.written = w.written ++ (log.flatMap fun x => x.job.writes x.response) ∧
    (w'.isIdle = true ↔ pending = none ∧ rest = [])

/-- A copy that is under way is one of those with a frame parameter. -/
def CopiesWithParameter (p : Parameters) (w : RemoteWorker) : Prop :=
  (w.state.expects = some .copyIn →
    ∃ c, p.inCopies[w.stateIndex]? = some c ∧ c.hasParameter = true) ∧
  (w.state.expects = some .copyOut →
    ∃ c, p.outCopies[w.stateIndex]? = some c ∧ c.hasParameter = true)

/-- On a frame, the copy that is under way is one whose kind goes with the frame's sign. -/
def Underway (p : Parameters) (w : RemoteWorker) : Prop :=
  match w.state with
  | .receiveCopyInFrameFile =>
      ∃ c, p.inCopies[w.stateIndex]? = some c ∧ decide (0 ≤ w.frame) = c.hasParameter
  | .receiveCopyOutFrameFile =>
      ∃ c, p.outCopies[w.stateIndex]? = some c ∧ decide (0 ≤ w.frame) = c.hasParameter
  | .idle | .sendCopyInFrameFile | .sendExecuteRequest | .receiveExecuteResponse
  | .sendCopyOutFrameFile => True
  | _ => False

theorem Underway.turn {w w' : RemoteWorker} {files : Files} (h : Underway p w)
    (hturn : Turn codec p files w w') : Underway p w' := by
  unfold Underway at h
  cases hturn with
  | sendWelcome hs => simp only [hs] at h
  | welcomed hs => simp only [hs] at h
  | inSent hpass hs hcopy hmatch =>
      cases hpass with
      | nonFrame => simp only [hs] at h
      | frame => exact ⟨_, hcopy, hmatch⟩
  | inSkipped hpass hs =>
      cases hpass with
      | nonFrame => simp only [hs] at h
      | frame => simp only [Underway, hs]
  | inFinished hpass hs => cases hpass <;> trivial
  | inReceived hpass hs =>
      cases hpass with
      | nonFrame => simp only [hs] at h
      | frame => trivial
  | sendExecute hs => trivial
  | executed hs => trivial
  | outSent hs hcopy hmatch => exact ⟨_, hcopy, hmatch⟩
  | outSkipped hs => simp only [Underway, hs]
  | outFinished hs => trivial
  | outReceived hs => trivial
  | unimplemented hs => rcases hs with hs | hs | hs <;> simp only [hs] at h

theorem Underway.ins {w : RemoteWorker} (h : Underway p w)
    (hexpects : w.state.expects = some .copyIn) :
    ∃ c, p.inCopies[w.stateIndex]? = some c ∧ decide (0 ≤ w.frame) = c.hasParameter := by
  unfold Underway at h
  cases hs : w.state with
  | receiveCopyInFrameFile =>
      rw [hs] at h
      exact h
  | receiveCopyInNonFrameFile =>
      rw [hs] at h
      exact h.elim
  | _ =>
      rw [hs] at hexpects
      exact absurd hexpects (by decide)

theorem Underway.outs {w : RemoteWorker} (h : Underway p w)
    (hexpects : w.state.expects = some .copyOut) :
    ∃ c, p.outCopies[w.stateIndex]? = some c ∧ decide (0 ≤ w.frame) = c.hasParameter := by
  unfold Underway at h
  cases hs : w.state with
  | receiveCopyOutFrameFile =>
      rw [hs] at h
      exact h
  | _ =>
      rw [hs] at hexpects
      exact absurd hexpects (by decide)

/-- What holds of a worker from `run_frame` on, until the next. -/
structure OnFrame (p : Parameters) (frame : Int) (w w' : RemoteWorker) : Prop where
  same : w'.frame = frame
  logged : ∃ log pending, LoggedSince p (askedJobs p frame) w.trace w' log pending
  underway : Underway p w'
  resting : w'.state.resting = true

theorem OnFrame.dispatch {frame : Int} {w w₁ w₂ : RemoteWorker} {files : Files}
    (hframe : w₁.frame = frame)
    (hlogged : ∃ log pending, LoggedSince p (askedJobs p frame) w.trace w₁ log pending)
    (hunderway : Underway p w₁) (himpl : w₁.state.implemented = true)
    (h : w₁.dispatch codec p files = .ok w₂) : OnFrame p frame w w₂ where
  same := (dispatch_same h).2.2.trans hframe
  logged := dispatch_invariant (P := fun w₁ => ∃ log pending,
    LoggedSince p (askedJobs p frame) w.trace w₁ log pending)
    (fun _ _ hw hturn => hturn.logged hw) h hlogged
  underway := dispatch_invariant (P := Underway p) (fun _ _ hw hturn => hw.turn hturn) h hunderway
  resting := dispatch_resting h himpl

theorem OnFrame.buffers {frame : Int} {w w₁ : RemoteWorker} (h : OnFrame p frame w w₁)
    (b : IncomingBuffer) (b' : OutgoingBuffer) :
    OnFrame p frame w { w₁ with incomingBuffer := b, outgoingBuffer := b' } := by
  obtain ⟨log, pending, hlog⟩ := h.logged
  exact ⟨h.same, ⟨log, pending, hlog.silent rfl rfl rfl rfl⟩, h.underway, h.resting⟩

theorem OnFrame.step {frame : Int} {w w₁ w₂ : RemoteWorker} {input : Input}
    (hw : OnFrame p frame w w₁) (hsame : SameFrame w₁ input)
    (h : step codec p w₁ input = some w₂) : OnFrame p frame w w₂ := by
  have himpl := ((State.resting_iff _).mp hw.resting).1
  rcases step_cases h with ⟨b, b', rfl⟩ | ⟨b, files, hdispatch⟩ | ⟨frame, files, rfl, -⟩
  · exact hw.buffers b b'
  · have hb := hw.buffers b w₁.outgoingBuffer
    exact .dispatch hb.same hb.logged hb.underway himpl hdispatch
  · exact absurd hsame (by simp [SameFrame, sameFrame])

/-- A worker that has just been given a number has all of its jobs before it. -/
theorem logged_askedJobs (w : RemoteWorker) (frame : Int) :
    LoggedSince p (askedJobs p frame) w.trace (w.given frame) [] none := by
  refine ⟨rfl, ?_, ?_, ?_, by simp, by simp, by simp, rfl, rfl⟩
  · simp [RemoteWorker.requests, given]
  · simp [RemoteWorker.responses, given]
  · simp [RemoteWorker.written, given]

theorem onFrame_of_runFrame {frame : Int} {w w₁ : RemoteWorker} {files : Files}
    (hgiven : w.runFrame codec p files frame = .ok w₁) : OnFrame p frame w w₁ :=
  .dispatch rfl ⟨[], none, logged_askedJobs w frame⟩ trivial rfl (runFrame_eq_ok hgiven).2

theorem onFrame_of_run {frame : Int} {w w₁ w₂ : RemoteWorker} {files : Files}
    (hgiven : w.runFrame codec p files frame = .ok w₁) {addr : Nat} {fd : Int}
    (hrun : (machine codec p addr fd).Run SameFrame w₁ w₂) : OnFrame p frame w w₂ :=
  hrun.invariant (fun _ _ _ hw hok hstep => hw.step hok hstep) (onFrame_of_runFrame hgiven)

/-- **A worker that was given a number asks for what the code does for it.** -/
theorem OnFrame.askedFor {frame : Int} {w w' : RemoteWorker} (h : OnFrame p frame w w') :
    AskedFor (askedJobs p frame) w w' := by
  obtain ⟨log, pending, hlog⟩ := h.logged
  exact ⟨log, pending, remaining p w', hlog.plan, hlog.requests,
    fun x hx => ⟨hlog.asks x hx, hlog.answers x hx⟩, hlog.asks_pending, hlog.written,
    hlog.idle_iff (expects_of_resting h.resting)⟩

/-- Where the number is treated as a frame, the copies under way are its own. -/
theorem OnFrame.copies {frame : Int} {w w' : RemoteWorker} (h : OnFrame p frame w w')
    (hnumber : FrameNumber p frame) : CopiesWithParameter p w' := by
  have hown : ∀ {copies : List FileCopy} {c : FileCopy},
      (¬ 0 ≤ frame → copies = []) → copies[w'.stateIndex]? = some c →
      decide (0 ≤ w'.frame) = c.hasParameter → c.hasParameter = true := by
    intro copies c hnone hcopy hmatch
    rw [h.same] at hmatch
    by_cases hframe : 0 ≤ frame
    · rw [← hmatch]
      exact decide_eq_true hframe
    · rw [hnone hframe] at hcopy
      exact absurd hcopy (by simp)
  constructor
  · intro hexpects
    obtain ⟨c, hcopy, hmatch⟩ := h.underway.ins hexpects
    exact ⟨c, hcopy, hown (fun hneg => (hnumber.resolve_left hneg).2.1) hcopy hmatch⟩
  · intro hexpects
    obtain ⟨c, hcopy, hmatch⟩ := h.underway.outs hexpects
    exact ⟨c, hcopy, hown (fun hneg => (hnumber.resolve_left hneg).2.2.1) hcopy hmatch⟩

/-! ### A worker is taken through a frame

The worker is made idle, given the number and answered, and each time it waits for the
next of its jobs.  Where no copy without a parameter may be under way, the first is the
renderer, and after it there is none.
-/

/-- So many jobs are behind the worker as it has heard responses; it waits for the next. -/
theorem OnFrame.next {frame : Int} {n : Nat} {w w' : RemoteWorker} (h : OnFrame p frame w w')
    (hheard : w'.responses.length = w.responses.length + n) :
    (w'.isIdle = true ∧ (askedJobs p frame).length = n) ∨
      ∃ job, (askedJobs p frame)[n]? = some job ∧ w'.state.expects = some job.type := by
  obtain ⟨log, pending, hlog⟩ := h.logged
  have hlength : log.length = n := by
    rw [hlog.responses, List.length_append, List.length_map] at hheard
    exact Nat.add_left_cancel hheard
  have hplan := hlog.plan
  cases pending with
  | none =>
      left
      have hexpects : w'.state.expects = none := hlog.expects.symm
      have hidle : w'.isIdle = true := by
        refine (expects_of_resting h.resting).resolve_right ?_
        rintro ⟨t, ht⟩
        exact absurd (hexpects.symm.trans ht) (by simp)
      obtain ⟨-, hrest⟩ := (hlog.idle_iff (expects_of_resting h.resting)).mp hidle
      rw [hplan, hrest]
      exact ⟨hidle, by simp [hlength]⟩
  | some a =>
      right
      refine ⟨a.job, ?_, hlog.expects.symm⟩
      rw [hplan]
      simp [hlength]

/-- An idle worker can be given any number. -/
theorem exists_given (codec : Codec) (p : Parameters) {w : RemoteWorker}
    (hidle : w.isIdle = true) (frame : Int) :
    ∃ w₁, w.runFrame codec p allFiles frame = .ok w₁ ∧
      w₁.responses.length = w.responses.length := by
  have hplace : (w.given frame).InPlace p := inPlace_given w frame
  have hok : ∃ w₁, (w.given frame).dispatch codec p allFiles = .ok w₁ := by
    rcases hplace.comesToRest.returns (Or.inl rfl) with hok | ⟨why, -, hlocal⟩
    · exact hok
    · exact absurd hlocal (not_localFailure obliging_allFiles)
  obtain ⟨w₁, hdispatch⟩ := hok
  refine ⟨w₁, by rw [runFrame, if_pos hidle]; exact hdispatch, ?_⟩
  have hsilent : w₁.responses = (w.given frame).responses := by
    cases dispatch_spoken hdispatch rfl with
    | silent _ _ hheard => exact hheard
    | asking _ _ _ hheard => exact hheard
  rw [hsilent]
  simp [responses, given]

end Session

/-! ### A worker that is removed -/

namespace RemoteWorker

variable {codec : Codec} {p : Parameters} {files : Files}

theorem started_eq (w : RemoteWorker) : w.started = w.framesGiven.getLast? := by
  unfold RemoteWorker.started framesGiven Event.history
  rw [List.getLast?_reverse, List.head?_filterMap]
  congr 1

theorem Turn.started {w w' : RemoteWorker} (h : Turn codec p files w w') :
    w'.started = w.started := by
  rw [started_eq, started_eq, h.framesGiven]

/-- The frame a worker holds is the last one it was given, if it was given any. -/
def HoldsStarted (w : RemoteWorker) : Prop := ∀ frame, w.started = some frame → w.frame = frame

theorem dispatch_holdsStarted {w w' : RemoteWorker} (h : w.dispatch codec p files = .ok w')
    (hw : w.HoldsStarted) : w'.HoldsStarted := by
  intro frame hstarted
  have hsame : w'.started = w.started :=
    dispatch_invariant (P := fun w₁ => w₁.started = w.started)
      (fun _ _ hw hturn => hturn.started.trans hw) h rfl
  rw [(dispatch_same h).2.2]
  exact hw frame (hsame ▸ hstarted)

end RemoteWorker

namespace Controller

open RemoteWorker

variable {codec : Codec} {p : Parameters}

theorem upheld_holdsStarted : Upheld codec p (fun _ => True) HoldsStarted where
  newcomer := by
    rintro addr w ⟨fd, proxyIndex, rfl⟩ frame hstarted
    exact absurd hstarted (by simp [started, make, sendRequest])
  incoming _ hw := hw
  outgoing _ hw := hw
  dispatch hw h := dispatch_holdsStarted h hw
  runFrame _ _ h := by
    refine dispatch_holdsStarted (runFrame_eq_ok h).2 ?_
    intro frame hstarted
    simpa [started, given] using hstarted
  frame _ _ := trivial

/-- The frame that a worker is on when it is removed goes to the front of the deque. -/
def PutsBack (codec : Codec) (p : Parameters) (frame : Int) : Prop :=
  ∀ (sockFd : Int) (fuel : Nat) (s t : Controller) (input : Input) (w : RemoteWorker),
    (machine codec p sockFd fuel).Reach Machine.Any s → step codec p s input = some t →
    s.victim input = some w → w.started = some frame → w.isIdle = false →
    t.frames = frame :: s.frames

/-- **A worker that is removed puts back any number but -1.** -/
theorem putsBack_of_ne {frame : Int} (h : frame ≠ -1) : PutsBack codec p frame := by
  intro sockFd fuel s t input w hreach hstep hvictim hstarted _
  obtain ⟨i, next, hw, rfl⟩ := killed_of_victim hvictim (move_of_step hstep)
  have hall := reach_all upheld_holdsStarted (fun _ _ _ _ => trivial) hreach
  have hframe := hall.workers w (List.mem_of_getElem? hw) frame hstarted
  rw [killWorker_eq hw, hframe]
  exact if_neg h

end Controller

/-! ### The numbers of a range -/

/-- In some session the worker was given the number, and this is what became of it since. -/
def Session.Serves (codec : Codec) (p : Parameters) (frame : Int) (w w' : RemoteWorker) : Prop :=
  ∃ (addr : Nat) (fd : Int) (files : Files) (w₁ : RemoteWorker),
    (machine codec p addr fd).Reach Machine.Any w ∧ w.runFrame codec p files frame = .ok w₁ ∧
    (machine codec p addr fd).Run SameFrame w₁ w'

/-- The number is treated as a frame: what is asked for it, and what becomes of it. -/
structure TreatedAsFrame (codec : Codec) (p : Parameters) (frame : Int) : Prop where
  asked : ∀ w w', Session.Serves codec p frame w w' → Session.AskedFor (frameJobs p frame) w w'
  copies : ∀ w w', Session.Serves codec p frame w w' → Session.CopiesWithParameter p w'
  /-- Wherever `kill_worker` removes the worker before it has finished. -/
  putBack : ∀ w w', Session.Serves codec p frame w w' → w'.isIdle = false →
    ∀ (s : Controller) (i index : Nat) (next : Pc), s.remoteWorkers[index]? = some w' →
      (s.killWorker i index next).frames = frame :: s.frames
  /-- So in every run of the controller. -/
  removed : Controller.PutsBack codec p frame

namespace Session

open RemoteWorker

variable {codec : Codec} {p : Parameters} {frame : Int} {w w' : RemoteWorker}

theorem Serves.onFrame (h : Serves codec p frame w w') : OnFrame p frame w w' := by
  obtain ⟨addr, fd, files, w₁, -, hgiven, hrun⟩ := h
  exact onFrame_of_run hgiven hrun

/-- **A frame number is treated as a frame.** -/
theorem treated_of_frameNumber (h : FrameNumber p frame) : TreatedAsFrame codec p frame := by
  have hne : frame ≠ -1 := by
    rcases h with hframe | hneg
    · omega
    · exact hneg.1
  refine ⟨?_, fun w w' hserves => hserves.onFrame.copies h, ?_, Controller.putsBack_of_ne hne⟩
  · intro w w' hserves
    rw [← h.askedJobs]
    exact hserves.onFrame.askedFor
  · intro w w' hserves _ s i index next hw
    rw [Controller.killWorker_eq hw, hserves.onFrame.same]
    exact if_neg hne

/-! ### No other is -/

theorem type_of_mem_passIns {copies : List FileCopy} {job : Job}
    (h : job ∈ passIns frame copies) : job.type = .copyIn := by
  obtain ⟨c, -, rfl⟩ := List.mem_map.mp h
  rfl

theorem type_of_mem_passOuts {copies : List FileCopy} {job : Job}
    (h : job ∈ passOuts frame copies) : job.type = .copyOut := by
  obtain ⟨c, -, rfl⟩ := List.mem_map.mp h
  rfl

/-- Where no copy is ever under way, there is a worker that has run the program, and that is
all there was to do. -/
theorem exists_rendered (hsound : codec.Sound) (hbrief : codec.Brief)
    (hno : ∀ w w', Serves codec p frame w w' →
      w'.state.expects ≠ some .copyIn ∧ w'.state.expects ≠ some .copyOut) :
    ∃ w w₁ w₂, Serves codec p frame w w₁ ∧ w₁.isIdle = false ∧ Serves codec p frame w w₂ ∧
      w₂.isIdle = true ∧ askedJobs p frame = [executeJob p frame] := by
  obtain ⟨w, hreach, hidle, htidy⟩ := exists_idle (p := p) hsound hbrief 0 4
  obtain ⟨w₁, hgiven, hheard⟩ := exists_given codec p hidle frame
  have hserves₁ : Serves codec p frame w w₁ := ⟨0, 4, allFiles, w₁, hreach, hgiven, .refl w₁⟩
  have hbusy : w₁.isIdle = false := (runFrame_same hgiven).2.2.2
  -- the first job is no copy
  have hins : passIns frame p.inCopies = [] := by
    rcases hserves₁.onFrame.next (n := 0) hheard with ⟨hidle₁, -⟩ | ⟨job, hjob, hexpects⟩
    · exact absurd (hidle₁.symm.trans hbusy) (by simp)
    · cases hcopies : passIns frame p.inCopies with
      | nil => rfl
      | cons copy rest =>
          have hmem : job ∈ passIns frame p.inCopies := by
            rw [askedJobs, hcopies] at hjob
            rw [hcopies]
            exact Option.some.inj hjob ▸ List.mem_cons_self
          rw [type_of_mem_passIns hmem] at hexpects
          exact absurd hexpects (hno w w₁ hserves₁).1
  obtain ⟨type, hawaits⟩ : ∃ type, w₁.Awaits p type :=
    (awaits_of_dispatch (runFrame_eq_ok hgiven).2 ⟨htidy.incoming, htidy.outgoing⟩
      (inPlace_given w frame)).resolve_left (by simp [hbusy])
  obtain ⟨b, w₂, -, -, hdispatch, hrun⟩ := exists_answered 0 4 hsound hbrief hawaits
  have hserves₂ : Serves codec p frame w w₂ := ⟨0, 4, allFiles, w₁, hreach, hgiven, hrun⟩
  have hheard₂ : w₂.responses.length = w.responses.length + 1 := by
    have hexpects : ({ w₁ with incomingBuffer := b } : RemoteWorker).state.expects ≠ none := by
      rw [hawaits.expects]
      exact Option.some_ne_none type
    obtain ⟨r, -, hspoken⟩ := dispatch_heard hdispatch hexpects
    have hresponses : w₂.responses = w₁.responses ++ [r] := by
      cases hspoken with
      | silent _ _ hheard => exact hheard
      | asking _ _ _ hheard => exact hheard
    rw [hresponses, List.length_append, hheard, List.length_singleton]
  -- and after the renderer there is none
  have hjobs : askedJobs p frame = executeJob p frame :: passOuts frame p.outCopies := by
    rw [askedJobs, hins, List.nil_append]
  have houts : w₂.isIdle = true ∧ passOuts frame p.outCopies = [] := by
    rcases hserves₂.onFrame.next (n := 1) hheard₂ with ⟨hidle₂, hlength⟩ | ⟨job, hjob, hexpects⟩
    · rw [hjobs, List.length_cons, Nat.add_eq_right, List.length_eq_zero_iff] at hlength
      exact ⟨hidle₂, hlength⟩
    · rw [hjobs, List.getElem?_cons_succ] at hjob
      rw [type_of_mem_passOuts (List.mem_of_getElem? hjob)] at hexpects
      exact absurd hexpects (hno w w₂ hserves₂).2
  exact ⟨w, w₁, w₂, hserves₁, hbusy, hserves₂, houts.1, by rw [hjobs, houts.2]⟩

/-- An idle worker has asked for all of its jobs. -/
theorem AskedFor.done {jobs : List Job} (h : AskedFor jobs w w') (hidle : w'.isIdle = true) :
    ∃ log : List Exchange, jobs = log.map (fun x => x.job) ∧
      w'.requests = w.requests ++ log.map (fun x => x.sent) ∧
      ∀ x ∈ log, x.job.Asks x.request x.source := by
  obtain ⟨log, pending, rest, hjobs, hrequests, hasks, -, -, hiff⟩ := h
  obtain ⟨rfl, rfl⟩ := hiff.mp hidle
  refine ⟨log, by simpa using hjobs, by simpa using hrequests, fun x hx => (hasks x hx).1⟩

/-- If running the program is all that was done, and it was to be done, they are the same. -/
theorem frameJobs_of_askedFor (h : AskedFor [executeJob p frame] w w')
    (h' : AskedFor (frameJobs p frame) w w') (hidle : w'.isIdle = true) :
    frameJobs p frame = [executeJob p frame] := by
  obtain ⟨log, hjobs, hrequests, hasks⟩ := h.done hidle
  obtain ⟨log', hjobs', hrequests', hasks'⟩ := h'.done hidle
  obtain ⟨x, rfl, hx⟩ : ∃ x, log = [x] ∧ executeJob p frame = x.job := by
    cases log with
    | nil => exact absurd hjobs (by simp)
    | cons x rest =>
        simp only [List.map_cons, List.cons.injEq, List.nil_eq, List.map_eq_nil_iff] at hjobs
        exact ⟨x, by rw [hjobs.2], hjobs.1⟩
  rw [hrequests, List.append_cancel_left_eq] at hrequests'
  obtain ⟨x', rfl, hsent⟩ : ∃ x', log' = [x'] ∧ x'.sent = x.sent := by
    cases log' with
    | nil => exact absurd hrequests' (by simp)
    | cons x' rest =>
        simp only [List.map_cons, List.map_nil, List.cons.injEq, List.nil_eq,
          List.map_eq_nil_iff] at hrequests'
        exact ⟨x', by rw [hrequests'.2], hrequests'.1.symm⟩
  -- the one job there is is to run the program
  have hexecute : x'.job = .execute p.executable (p.arguments.map (withNumber frame)) := by
    have hmem : Job.execute p.executable (p.arguments.map (withNumber frame))
        ∈ frameJobs p frame := List.mem_append_right _ List.mem_cons_self
    rw [hjobs'] at hmem
    exact (List.mem_singleton.mp hmem).symm
  have hasks₁ := hasks x List.mem_cons_self
  have hasks₂ := hasks' x' List.mem_cons_self
  rw [← hx, executeJob] at hasks₁
  rw [hexecute] at hasks₂
  have hrequest : x'.request = x.request := congrArg Prod.fst hsent
  have hsame := hasks₂.1.symm.trans (hrequest.trans hasks₁.1)
  rw [hjobs', List.map_singleton, hexecute, executeJob]
  simp only [Request.mk.injEq, Option.some.injEq, ExecuteRequest.mk.injEq, true_and, and_true]
    at hsame
  rw [hsame]

/-- A list of copies of which none is made and none is to be made is empty. -/
theorem copies_eq_nil (hframe : ¬ 0 ≤ frame) {copies : List FileCopy} {job job' : FileCopy → Job}
    (h : jobsOf (fun c => decide (0 ≤ frame) == c.hasParameter) job copies = [])
    (h' : jobsOf FileCopy.hasParameter job' copies = []) : copies = [] := by
  simp only [jobsOf, List.map_eq_nil_iff, List.filter_eq_nil_iff, decide_eq_false hframe] at h h'
  cases copies with
  | nil => rfl
  | cons c rest =>
      have hplain := h c List.mem_cons_self
      have hparameter := h' c List.mem_cons_self
      cases hc : c.hasParameter with
      | true => exact absurd hc hparameter
      | false => exact absurd (by rw [hc]; rfl) hplain

theorem parts_of_singleton {ins outs : List Job} {job job' : Job}
    (h : ins ++ job :: outs = [job']) : ins = [] ∧ job = job' ∧ outs = [] := by
  cases ins with
  | nil => simpa using h
  | cons a rest => simp at h

/-- **What is treated as a frame is a frame number.** -/
theorem frameNumber_of_treated (hsound : codec.Sound) (hbrief : codec.Brief)
    (h : TreatedAsFrame codec p frame) : FrameNumber p frame := by
  by_cases hframe : 0 ≤ frame
  · exact Or.inl hframe
  -- below zero, a copy that is under way is one without a parameter
  have hunwanted : ∀ {w' : RemoteWorker} {c : FileCopy}, w'.frame = frame →
      decide (0 ≤ w'.frame) = c.hasParameter → c.hasParameter ≠ true := by
    intro w' c hsame hmatch
    rw [← hmatch, hsame, decide_eq_false hframe]
    exact Bool.false_ne_true
  have hno : ∀ w w', Serves codec p frame w w' →
      w'.state.expects ≠ some .copyIn ∧ w'.state.expects ≠ some .copyOut := by
    intro w w' hserves
    constructor
    · intro hexpects
      obtain ⟨c, hcopy, hmatch⟩ := hserves.onFrame.underway.ins hexpects
      obtain ⟨c', hcopy', hparameter⟩ := (h.copies w w' hserves).1 hexpects
      rw [hcopy, Option.some.injEq] at hcopy'
      exact hunwanted hserves.onFrame.same hmatch (hcopy' ▸ hparameter)
    · intro hexpects
      obtain ⟨c, hcopy, hmatch⟩ := hserves.onFrame.underway.outs hexpects
      obtain ⟨c', hcopy', hparameter⟩ := (h.copies w w' hserves).2 hexpects
      rw [hcopy, Option.some.injEq] at hcopy'
      exact hunwanted hserves.onFrame.same hmatch (hcopy' ▸ hparameter)
  obtain ⟨w, w₁, w₂, hserves₁, hbusy, hserves₂, hidle, hjobs⟩ :=
    exists_rendered hsound hbrief hno
  have hframeJobs : frameJobs p frame = [executeJob p frame] :=
    frameJobs_of_askedFor (hjobs ▸ hserves₂.onFrame.askedFor) (h.asked w w₂ hserves₂) hidle
  obtain ⟨hins, -, houts⟩ := parts_of_singleton hjobs
  obtain ⟨hins', hexecute, houts'⟩ := parts_of_singleton hframeJobs
  refine Or.inr ⟨?_, copies_eq_nil hframe hins hins', copies_eq_nil hframe houts houts', ?_⟩
  -- nothing is put back for -1
  · rintro rfl
    have hback := h.putBack w w₁ hserves₁ hbusy
      { sockFd := 0, frames := [], remoteWorkers := [w₁], pollfds := [], result := 0
        pc := .polling, nextAddr := 0, finished := [], handed := [], killed := [] } 0 0 .polling rfl
    rw [Controller.killWorker_eq rfl, hserves₁.onFrame.same] at hback
    exact absurd hback (by simp)
  -- and nothing is substituted below zero
  · have hneg : frame < 0 := by omega
    simp only [executeJob, substituteParameter_neg _ hneg, Job.execute.injEq,
      true_and] at hexecute
    intro argument hargument
    have hsame := List.map_inj_left.mp hexecute argument hargument
    exact (withNumber_eq_self_iff hneg argument).mp hsame

end Session

/--
**When a number of the range is treated as a frame**: if it is not negative, or else if it
is not -1, there is nothing to copy and no argument has a parameter.  Of the numbers below
zero only -1 is lost when its worker is removed, but none of them has its copies made, and
in none of their jobs is a parameter replaced.
-/
theorem treatedAsFrame_iff :
    ∀ (spec : Bytes) (frames : Frames) (fuel : Nat) (jobs : List Int),
      Frames.parse spec = .ok frames → frames.getAll fuel = .ok jobs → ∀ frame ∈ jobs,
      ∀ (codec : Codec) (p : Parameters), codec.Sound → codec.Brief → p.frames = frames →
      (TreatedAsFrame codec p frame ↔ FrameNumber p frame) := by
  intro spec frames fuel jobs _ _ frame _ codec p hsound hbrief _
  exact ⟨Session.frameNumber_of_treated hsound hbrief, Session.treated_of_frameNumber⟩

/-- One file goes in for each frame. -/
def oneIn (frames : Frames) : Parameters where
  frames := frames
  inCopies := [.make (bytes "scene%d") (bytes "scene%d")]
  executable := bytes "render"

theorem treatedAsFrame_iff_zero :
    TreatedAsFrame drpCodec (oneIn ⟨1, -1, -1⟩) 0 ↔ FrameNumber (oneIn ⟨1, -1, -1⟩) 0 :=
  treatedAsFrame_iff (bytes "1,-1") ⟨1, -1, -1⟩ 4 [1, 0, -1] (by decide) (by decide) 0 (by decide)
    drpCodec (oneIn ⟨1, -1, -1⟩) drpCodec_sound drpCodec_brief rfl

/-- The range from 1 down to -1 has a number that is not. -/
theorem not_treatedAsFrame_minus_one :
    ¬ ∀ (spec : Bytes) (frames : Frames) (fuel : Nat) (jobs : List Int),
      Frames.parse spec = .ok frames → frames.getAll fuel = .ok jobs → ∀ frame ∈ jobs,
      ∀ (codec : Codec) (p : Parameters), codec.Sound → codec.Brief → p.frames = frames →
      TreatedAsFrame codec p frame := by
  intro h
  have htreated := h (bytes "1,-1") ⟨1, -1, -1⟩ 4 [1, 0, -1] (by decide) (by decide) (-1)
    (by decide) drpCodec (oneIn ⟨1, -1, -1⟩) drpCodec_sound drpCodec_brief rfl
  exact absurd (Session.frameNumber_of_treated drpCodec_sound drpCodec_brief htreated) (by decide)

end Distray
