/-
What the workers have carried out.

The controller's log says which jobs were done, and what is on record at the workers'
ends says what they did.  The two agree, one pair at a time and in the whole system:
what a worker has dealt with is the beginning of its script, and a frame that counts as
finished has had its whole part of the script carried out by one worker, without
anything in between.

In the system this has to outlive the worker.  A frame stays finished when its worker has
gone, and the record keeps what was done for it, so the statement is about the record and an
address, and not about anybody who is still there.
-/
import Distray.Proofs.Delivery
import Distray.Proofs.Script
import Distray.Proofs.Conservation
import Distray.Proofs.Enumeration
import Distray.Proofs.Rendering
import Distray.Lib.Parts

namespace Distray

/-- A worker has been asked for a job. -/
def AskedFor (job : Job) (x : Handled) : Prop := ∃ source, job.Asks x.request source

/-- What the worker answered says that the job was done. -/
def Done (job : Job) (x : Handled) : Prop := job.Answers x.response

/-! ### One worker

The log has a request for each job that was asked for and a response for each that was
answered, and the record of the other end begins with the same.  So the record is that of
the first jobs of the script.
-/

namespace Delivered

variable {codec : Codec} {p : Parameters} {history : List Handled} {w : RemoteWorker} {l : Link}

/--
What the worker has dealt with is the beginning of the script, and all of it but the
last was done.
-/
theorem follows (h : Delivered codec history w l) (hlog : w.HasLog p) :
    ∃ done rest, script p w.framesGiven = done ++ rest ∧ List.Forall₂ AskedFor done history ∧
      List.Forall₂ Done done.dropLast history.dropLast := by
  obtain ⟨log, pending, hlog⟩ := hlog
  obtain ⟨hfirst, -, hresponses, hlen⟩ := h.spec
  -- the jobs in the order in which they were asked for
  let items : List Asked := log.map Exchange.toAsked ++ pending.toList
  have hitems : ∀ a ∈ items, a.job.Asks a.request a.source := by
    intro a ha
    rcases List.mem_append.mp ha with ha | ha
    · obtain ⟨x, hx, rfl⟩ := List.mem_map.mp ha
      exact hlog.asks x hx
    · exact hlog.asks_pending a (by simpa using ha)
  have hscript : script p w.framesGiven
      = items.map Asked.job ++ RemoteWorker.remaining p w := by
    rw [hlog.script]
    simp only [items, List.map_append, List.map_map, Function.comp_def]
    cases pending <;> rfl
  have hasked : w.asked = items.map Asked.request := by
    rw [RemoteWorker.asked, hlog.requests]
    simp only [items, List.map_append, List.map_map, Function.comp_def]
    cases pending <;> rfl
  have htake : (items.take history.length).map Asked.request = history.map Handled.request := by
    rw [hasked, List.prefix_iff_eq_take, List.length_map] at hfirst
    rw [hfirst, List.map_take]
  refine ⟨(items.take history.length).map Asked.job,
    (items.drop history.length).map Asked.job ++ RemoteWorker.remaining p w, ?_, ?_, ?_⟩
  · rw [hscript, ← List.append_assoc, ← List.map_append, List.take_append_drop]
  · rw [List.forall₂_map_left_iff]
    refine Parts.forall₂_of_map_eq htake ?_
    intro a ha x _ heq
    exact ⟨a.source, heq ▸ hitems a (List.mem_of_mem_take ha)⟩
  · rw [hlog.responses] at hresponses hlen
    rw [List.length_map] at hlen
    have hshort : history.dropLast.length ≤ log.length := by
      rw [List.length_dropLast]
      omega
    have hdone : ((items.take history.length).map Asked.job).dropLast
        = (log.take history.dropLast.length).map fun x => x.job := by
      have hfull : history.length ≤ items.length := by
        have hsame := congrArg List.length htake
        simp only [List.length_map, List.length_take] at hsame
        omega
      rw [← List.map_dropLast, List.dropLast_eq_take, List.take_take, List.length_take,
        List.length_dropLast]
      rw [show min (min history.length items.length - 1) history.length
          = history.length - 1 by omega]
      rw [List.length_dropLast] at hshort
      rw [List.take_append_of_le_length (by rw [List.length_map]; exact hshort), ← List.map_take,
        List.map_map]
      rfl
    rw [hdone, List.forall₂_map_left_iff]
    have hheard : (log.take history.dropLast.length).map Exchange.response
        = history.dropLast.map Handled.response := by
      have hshorter : history.dropLast.map Handled.response
          = (history.map Handled.response).take history.dropLast.length := by
        rw [← List.map_take, List.length_dropLast, List.dropLast_eq_take]
      obtain ⟨more, hmore⟩ := hresponses
      rw [hshorter, ← hmore, List.take_append_of_le_length (by rw [List.length_map]; exact hshort),
        List.map_take]
    refine Parts.forall₂_of_map_eq hheard ?_
    intro x hx y _ heq
    show x.job.Answers y.response
    rw [← heq]
    exact hlog.answers x (List.mem_of_mem_take hx)

end Delivered

namespace Pair

variable {codec : Codec} {p : Parameters}

/-- A frame that is handed out is not negative. -/
def framesNonneg : Input → Bool
  | .runFrame frame _ => 0 ≤ frame
  | _ => true

/-- The messages fit, and the frames are not negative. -/
abbrev FitsNonneg (codec : Codec) (p : Parameters) (s : Pair) (input : Input) : Prop :=
  Fits codec p s input ∧ framesNonneg input = true

theorem kept_of_move {s t : Pair} {input : Input} (h : Session.Kept p s.worker)
    (hnonneg : framesNonneg input = true) (hmove : Move codec p s input t) :
    Session.Kept p t.worker := by
  cases hmove with
  | @started files w hs hok =>
      have hstep : Session.step codec p s.worker (.start files) = some w := by
        rw [Session.step, if_pos hs]
        exact Session.returned_eq_some.mpr hok
      exact h.step rfl hstep
  | @received data files l w hfit _ hok =>
      have hstep : Session.step codec p s.worker (.recv (.ok data) files) = some w := by
        simp [Session.step, hfit, hok]
      exact h.step rfl hstep
  | @sent r w out hfit hok =>
      have hstep : Session.step codec p s.worker (.send r) = some w := by
        simp [Session.step, hfit, hok]
      exact h.step rfl hstep
  | @given frame files w hok =>
      have hstep : Session.step codec p s.worker (.runFrame frame files) = some w :=
        Session.returned_eq_some.mpr hok
      have hframe : Session.FramesNonneg s.worker (.runFrame frame files) :=
        hnonneg
      exact h.step hframe hstep
  | link => exact h
  | stopped => exact h

theorem reach_kept {addr : Nat} {fd : Int} {hops : Nat} {s : Pair}
    (h : (machine codec p addr fd hops).Reach (FitsNonneg codec p) s) :
    Session.Kept p s.worker := by
  have hinit : Session.Kept p (RemoteWorker.make addr fd) :=
    Session.reach_kept (Machine.Reach.init (m := Session.machine codec p addr fd))
  exact Machine.Reach.invariant (P := fun s => Session.Kept p s.worker) hinit
    (fun _ _ _ hs hok hstep => kept_of_move hs hok.2 (move_of_step hstep).2) h

end Pair

/--
**A worker carries out the beginning of its script.**  In every state, what the worker
has dealt with are the first jobs of the documented order of execution, each of them
once and with nothing left out; and it was not asked for one before it had reported the
one before as done.
-/
theorem worker_follows_script (codec : Codec) (hsound : codec.Sound) (p : Parameters)
    (addr : Nat) (fd : Int) (hops : Nat) (s : Pair) (history : List Handled)
    (h : (Pair.recorded codec p addr fd hops).Reach (Machine.Onto (Pair.FitsNonneg codec p))
      (s, history)) :
    ∃ done rest, script p s.worker.framesGiven = done ++ rest ∧
      List.Forall₂ AskedFor done history ∧
      List.Forall₂ Done done.dropLast history.dropLast := by
  have hfits : (Pair.recorded codec p addr fd hops).Reach (Machine.Onto (Pair.Fits codec p))
      (s, history) := Machine.Run.mono (fun _ _ hok => hok.1) h
  have hdelivered := Pair.reach_delivered hsound hfits
  exact hdelivered.2.follows (Pair.reach_kept h.forget).logged

theorem Pair.reach_oneRenderedRecord_nonneg :
    (recorded drpCodec oneProgram 0 4 1).Reach (Machine.Onto (FitsNonneg drpCodec oneProgram))
      (((recorded drpCodec oneProgram 0 4 1).exec
        (Machine.Onto (FitsNonneg drpCodec oneProgram)) unrendered
        (.start bareEnv.files :: exchange RemoteWorker.welcomeRequest ++
          .runFrame 1 bareEnv.files ::
            exchange (RemoteWorker.executeRequest oneProgram 1))).getD unrendered) :=
  Machine.Run.of_replay (by decide +kernel)

theorem worker_follows_script_rendered :
    ∃ done rest, script Pair.oneProgram Pair.oneRenderedRecord.1.worker.framesGiven
        = done ++ rest ∧
      List.Forall₂ AskedFor done Pair.oneRenderedRecord.2 ∧
      List.Forall₂ Done done.dropLast Pair.oneRenderedRecord.2.dropLast :=
  worker_follows_script drpCodec drpCodec_sound Pair.oneProgram 0 4 1
    Pair.oneRenderedRecord.1 Pair.oneRenderedRecord.2 Pair.reach_oneRenderedRecord_nonneg

/-! ### All the workers of a system

A frame is finished in the step in which its worker comes back to `IDLE`, and then the whole
of its script has been carried out.  What is on record about a worker is only added to, so
that this can still be said when the worker has long been given something else, or is gone.
-/

namespace RemoteWorker

variable {codec : Codec} {p : Parameters} {files : Files}

theorem dispatch_framesGiven {w w' : RemoteWorker} (h : w.dispatch codec p files = .ok w') :
    w'.framesGiven = w.framesGiven :=
  dispatch_invariant (P := fun w' => w'.framesGiven = w.framesGiven)
    (fun _ _ hw hturn => hturn.framesGiven.trans hw) h rfl

/-- The last frame that was handed out is the one it was last given. -/
theorem framesGiven_started {w : RemoteWorker} {frame : Int} (h : w.started = some frame) :
    ∃ before, w.framesGiven = before ++ [frame] := by
  have hhead : (w.trace.filterMap Event.frame?).head? = some frame := by
    rw [List.head?_filterMap, ← h, started]
    congr 1
  obtain ⟨rest, hrest⟩ := List.head?_eq_some_iff.mp hhead
  refine ⟨rest.reverse, ?_⟩
  rw [framesGiven, Event.history, hrest, List.reverse_cons]

end RemoteWorker

namespace Controller

open RemoteWorker

variable {codec : Codec} {p : Parameters}

/-- Every worker of a controller has a log, where the frames are not negative. -/
theorem upheld_hasLog :
    Upheld codec p (0 ≤ ·) (fun w => w.Phased p ∧ w.HasLog p) where
  newcomer := by
    intro addr w hnew
    refine ⟨hnew.phased, ?_⟩
    obtain ⟨fd, proxyIndex, rfl⟩ := hnew
    obtain ⟨log, pending, hlog⟩ := hasLog_make (p := p) addr fd
    have hlog' : HasLog p { make addr fd with proxyIndex := proxyIndex } :=
      ⟨log, pending, logged_iff.mpr ((logged_iff.mp hlog).silent rfl rfl rfl rfl)⟩
    have hturn : Turn codec p noFiles { make addr fd with proxyIndex := proxyIndex }
        (newcomer codec addr fd proxyIndex) := .sendWelcome rfl
    exact hturn.hasLog hlog'
  incoming b hw := ⟨phased_incomingBuffer hw.1 b, hasLog_buffers hw.2 b _⟩
  outgoing b hw := ⟨phased_outgoingBuffer hw.1 b, hasLog_buffers hw.2 _ b⟩
  dispatch hw h := ⟨dispatch_phased h hw.1, dispatch_hasLog h hw.2⟩
  runFrame hw hframe h :=
    ⟨runFrame_phased hframe h,
      dispatch_hasLog (runFrame_eq_ok h).2 (hasLog_given hw.2 (runFrame_eq_ok h).1 hframe)⟩
  frame hw hne := (frame_cases hw.1).resolve_left hne

/-- When the controller returns 0 all frames are finished. -/
theorem all_finished {sockFd : Int} {fuel : Nat} {jobs : List Int}
    (hget : p.frames.getAll fuel = .ok jobs) (hnonneg : ∀ f ∈ jobs, 0 ≤ f)
    {s : Controller} (h : (machine codec p sockFd fuel).Reach Machine.Any s)
    (hret : s.pc = .returned 0) : ∀ f ∈ jobs, f ∈ s.finished := by
  obtain ⟨hframes, hidle⟩ := idle_of_returned h hret
  have hnodup : jobs.Nodup := (Frames.mem_of_getAll hget).1
  refine (reach_pool hget hnodup hnonneg h).2.all_done hframes ?_
  intro slot hslot
  obtain ⟨w, hw, rfl⟩ := List.mem_map.mp hslot
  simp only [anyWorkerWorking, List.any_eq_false] at hidle
  simpa [RemoteWorker.slot] using hidle w hw

/-- A frame is finished by a worker that comes back idle from its part of the script. -/
theorem finished_of_move {s t : Controller} {input : Input} (hmove : Move codec p s input t) :
    t.finished = s.finished ∨ ∃ w ∈ t.remoteWorkers, w.hasFinished p = true ∧
      t.pc.stopped = false ∧ t.finished = w.frame :: s.finished := by
  have hkill : ∀ i index next, (s.killWorker i index next).finished = s.finished := by
    intro i index next
    unfold killWorker
    split <;> rfl
  cases hmove with
  | connect =>
      exact Or.inl (connectProxies_of (R := fun t => t.finished = s.finished)
        (fun _ _ _ h => h) (fun _ _ h _ => h) _ _ _ s rfl)
  | accept =>
      exact Or.inl (acceptWorker_of (R := fun t => t.finished = s.finished)
        (fun _ _ _ h => h) (fun _ _ h _ => h) _ _ rfl)
  | @receive r files i w hpc hin hw hfit =>
      refine receiveFrom_of (R := fun t => t.finished = s.finished ∨ ∃ w ∈ t.remoteWorkers,
        w.hasFinished p = true ∧ t.pc.stopped = false ∧ t.finished = w.frame :: s.finished)
        (fun _ _ => Or.inl rfl) ?_ fun _ => Or.inl (hkill _ _ _)
      intro w' hok
      by_cases hfinished : (!w.isIdle && w'.hasFinished p) = true
      · obtain ⟨hlt, -⟩ := List.getElem?_eq_some_iff.mp hw
        refine Or.inr ⟨w', List.mem_set hlt w', ?_, rfl, if_pos hfinished⟩
        rw [Bool.and_eq_true] at hfinished
        exact hfinished.2
      · exact Or.inl (if_neg hfinished)
  | send =>
      exact Or.inl (sendTo_of (R := fun t => t.finished = s.finished) (fun _ _ => rfl)
        fun _ _ _ => rfl)
  | kill => exact Or.inl (hkill _ _ _)
  | assign =>
      exact Or.inl (after_of (R := fun t => t.finished = s.finished) (fun _ _ => rfl)
        fun _ _ => rfl)
  | _ => exact Or.inl rfl

end Controller

namespace System

open RemoteWorker Controller

variable {codec : Codec} {p : Parameters} {hops : Nat → Nat}

/-- The controller of a system does nothing that a controller alone would not. -/
theorem reach_controller {ok : System → Input → Prop} {sockFd : Int} {fuel : Nat} {s : System}
    (h : (machine codec p sockFd fuel hops).Reach ok s) :
    (Controller.machine codec p sockFd fuel).Reach Machine.Any s.controller := by
  refine Machine.Reach.invariant
    (P := fun s => (Controller.machine codec p sockFd fuel).Reach Machine.Any s.controller)
    .init ?_ h
  intro s input t hs _ hstep
  cases input with
  | controller input =>
      show (Controller.machine codec p sockFd fuel).Run Machine.Any _ _
      rw [show (machine codec p sockFd fuel hops).step s (.controller input)
        = System.step codec p s (.controller input) from rfl, System.step] at hstep
      split at hstep
      · rename_i links c _ hc
        rw [Option.some.injEq] at hstep
        subst hstep
        exact .step hs trivial hc
      · exact absurd hstep (by simp)
  | link addr input =>
      rw [show (machine codec p sockFd fuel hops).step s (.link addr input)
        = System.step codec p s (.link addr input) from rfl, System.step] at hstep
      split at hstep
      · obtain ⟨l, -, rfl⟩ := Option.map_eq_some_iff.mp hstep
        exact hs
      · exact absurd hstep (by simp)

/-- Its workers have a log, where the frames of the range are not negative. -/
theorem reach_logged {ok : System → Input → Prop} {sockFd : Int} {fuel : Nat} {jobs : List Int}
    (hget : p.frames.getAll fuel = .ok jobs) (hnonneg : ∀ f ∈ jobs, 0 ≤ f) {s : System}
    (h : (machine codec p sockFd fuel hops).Reach ok s) :
    All (0 ≤ ·) (fun w => w.Phased p ∧ w.HasLog p) s.controller := by
  refine reach_all upheld_hasLog ?_ (reach_controller h)
  intro jobs' hget'
  rw [hget, Outcome.ok.injEq] at hget'
  exact hget' ▸ hnonneg

/-- What is on record about a worker, since it connected, agrees with its conversation. -/
def Accounted (codec : Codec) (record : List (Nat × Handled)) (w : RemoteWorker) (l : Link) :
    Prop :=
  ∃ part, part <:+ recordOf w.addr record ∧ Delivered codec part w l

theorem keeps_accounted (hsound : codec.Sound) (record : List (Nat × Handled)) :
    Keeps codec p (fun w l => messagesFit codec w l = true → Accounted codec record w l) where
  newcomer := by
    intro addr n w hnew hfit
    refine ⟨[], List.nil_suffix, ?_⟩
    have hin : InStep codec w (Link.make n) := hnew.inStep hfit
    have hquiet : (Link.make n).Quiet := ⟨by simp [Link.make], by simp [Link.make], rfl⟩
    have hspoken : Spoken codec [] [] w := by
      obtain ⟨fd, proxyIndex, rfl⟩ := hnew
      exact Spoken.sendRequest (w := { make addr fd with proxyIndex := proxyIndex }) rfl rfl
        welcomeRequest none rfl
    exact .of_spoken hspoken hin hquiet hfit
  receive := by
    intro w w' l l' data files hin hfit hR hadmits hdeliver hok hfit'
    obtain ⟨part, hsuffix, hdelivered⟩ := hR hfit
    refine ⟨part, ?_, hdelivered.receive hsound hin hadmits hdeliver hok hfit'⟩
    rw [(receive_same hok).1]
    exact hsuffix
  send := by
    intro w w' l r out hin hfit hR hadmits hok _
    obtain ⟨part, hsuffix, hdelivered⟩ := hR hfit
    refine ⟨part, ?_, hdelivered.send hin hadmits hok⟩
    obtain ⟨b, -, rfl⟩ := send_eq_ok hok
    exact hsuffix
  runFrame := by
    intro w w' l frame files hin hfit hR hok hfit'
    obtain ⟨part, hsuffix, hdelivered⟩ := hR hfit
    refine ⟨part, ?_, hdelivered.runFrame hin hok hfit'⟩
    rw [(runFrame_same hok).1]
    exact hsuffix

/--
One worker has carried out all of a frame's part of the script, in order and with
nothing in between, and reported each job as done.
-/
def CarriedOut (p : Parameters) (record : List (Nat × Handled)) (frame : Int) : Prop :=
  ∃ addr entries, entries <:+: recordOf addr record ∧
    List.Forall₂ (fun job x => AskedFor job x ∧ Done job x) (frameScript p frame) entries

/--
One worker has carried out a whole script that ends with a frame, from the welcome on, in
order and with nothing in between, and reported each job as done.
-/
def CarriedThrough (p : Parameters) (record : List (Nat × Handled)) (frame : Int) : Prop :=
  ∃ addr before entries, entries <:+: recordOf addr record ∧
    List.Forall₂ (fun job x => AskedFor job x ∧ Done job x) (script p (before ++ [frame])) entries

theorem CarriedThrough.carriedOut {record : List (Nat × Handled)} {frame : Int}
    (h : CarriedThrough p record frame) : CarriedOut p record frame := by
  obtain ⟨addr, before, entries, hinfix, hcarried⟩ := h
  have hscript : script p (before ++ [frame]) = script p before ++ frameScript p frame := by
    simp [script]
  refine ⟨addr, entries.drop (script p before).length, ?_, ?_⟩
  · exact (List.drop_suffix _ _).isInfix.trans hinfix
  · have hend := List.forall₂_drop (script p before).length hcarried
    rwa [hscript, List.drop_left] at hend

theorem CarriedThrough.mono {record : List (Nat × Handled)} {frame : Int}
    (h : CarriedThrough p record frame) (new : List (Nat × Handled)) :
    CarriedThrough p (record ++ new) frame := by
  obtain ⟨addr, before, entries, hinfix, hcarried⟩ := h
  refine ⟨addr, before, entries, hinfix.trans ?_, hcarried⟩
  rw [recordOf_append]
  exact (List.prefix_append _ _).isInfix

/-- **A worker that comes back idle with its frame has carried out all it was given.** -/
theorem Accounted.carriedThrough {record : List (Nat × Handled)} {w : RemoteWorker} {l : Link}
    (h : Accounted codec record w l) (hin : InStep codec w l) (hlog : w.HasLog p)
    (hfinished : w.hasFinished p = true) : CarriedThrough p record w.frame := by
  obtain ⟨part, hsuffix, hdelivered⟩ := h
  obtain ⟨log, pending, hlog⟩ := hlog
  simp only [hasFinished, Bool.and_eq_true, beq_iff_eq] at hfinished
  obtain ⟨⟨⟨hidle, hstarted⟩, -⟩, -⟩ := hfinished
  have hs : w.state = .idle := by simpa [isIdle] using hidle
  -- nothing is pending and nothing remains, so the log is all of the script
  obtain rfl := (logged_iff.mp hlog).pending_none (by rw [hs]; rfl)
  obtain ⟨hrequests, hresponses⟩ := hdelivered.ready hin (by rw [hs]; rfl)
  obtain ⟨before, hgiven⟩ := framesGiven_started hstarted
  have hscript : log.map (fun x => x.job) = script p (before ++ [w.frame]) := by
    have hremaining : remaining p w = [] := by simp only [remaining, hs]
    have hscript := hlog.script
    rw [hremaining, hgiven, Option.map_none, Option.toList_none, List.append_nil,
      List.append_nil] at hscript
    exact hscript.symm
  have hasked : log.map (fun x => x.request) = part.map Handled.request := by
    rw [hrequests, RemoteWorker.asked, hlog.requests, Option.map_none, Option.toList_none,
      List.append_nil, List.map_map]
    rfl
  have hheard : log.map Exchange.response = part.map Handled.response := by
    rw [hresponses, hlog.responses]
  have hboth : log.map (fun x => (x.request, x.response))
      = part.map fun x => (x.request, x.response) := by
    rw [← List.zip_map', ← List.zip_map', hasked, hheard]
  refine ⟨w.addr, before, part, hsuffix.isInfix, ?_⟩
  rw [← hscript, List.forall₂_map_left_iff]
  refine Parts.forall₂_of_map_eq hboth ?_
  intro x hx y _ heq
  rw [Prod.mk.injEq] at heq
  refine ⟨⟨x.source, heq.1 ▸ hlog.asks x hx⟩, ?_⟩
  show x.job.Answers y.response
  rw [← heq.2]
  exact hlog.answers x hx

/-- What holds of a system, with its record, in every state it reaches. -/
structure Audited (codec : Codec) (p : Parameters) (hops : Nat → Nat) (s : System)
    (record : List (Nat × Handled)) : Prop where
  inv : Inv codec hops s
  logs : All (0 ≤ ·) (fun w => w.Phased p ∧ w.HasLog p) s.controller
  accounts : s.controller.pc.stopped = false → Attached
    (fun w l => messagesFit codec w l = true → Accounted codec record w l) hops s.links
    s.controller
  finished : ∀ f ∈ s.controller.finished, CarriedThrough p record f

/-- **A step keeps the books.** -/
theorem Audited.step {s t : System} {record : List (Nat × Handled)} {input : Input}
    (hsound : codec.Sound) (h : Audited codec p hops s record) (hfits : Fits codec p s input)
    (hstep : System.step codec p s input = some t) :
    Audited codec p hops t (record ++ s.note input) := by
  have hinv := h.inv.step hsound hfits hstep
  cases input with
  | controller input =>
      rw [System.step] at hstep
      split at hstep
      case h_2 => exact absurd hstep (by simp)
      rename_i links c htransport hc
      rw [Option.some.injEq] at hstep
      subst hstep
      have hmove := move_of_step hc
      have hrunning := not_stopped_of_step hc
      have hlogs := h.logs.move upheld_hasLog hmove
      have haccounts := attached_of_move (keeps_accounted hsound record) h.inv
        (h.accounts hrunning) hrunning htransport hmove
      show Audited codec p hops ⟨c, links⟩ (record ++ [])
      rw [List.append_nil]
      refine ⟨hinv, hlogs, haccounts, ?_⟩
      rcases finished_of_move hmove with hsame | ⟨w, hw, hfinished, hgoing, hnew⟩
      · show ∀ f ∈ c.finished, _
        rw [hsame]
        exact h.finished
      · show ∀ f ∈ c.finished, _
        rw [hnew]
        intro f hf
        rcases List.mem_cons.mp hf with rfl | hf
        · exact ((haccounts hgoing).each w hw (hinv.fits w hw)).carriedThrough
            (hinv.inStep hgoing hw) (hlogs.workers w hw).2 hfinished
        · exact h.finished f hf
  | link addr input =>
      rw [System.step] at hstep
      split at hstep
      case isFalse => exact absurd hstep (by simp)
      rename_i haddr
      obtain ⟨l, hl, rfl⟩ := Option.map_eq_some_iff.mp hstep
      refine ⟨hinv, h.logs, fun hrunning => ?_, fun f hf => (h.finished f hf).mono _⟩
      have hattached := h.accounts hrunning
      refine ⟨(hinv.linked hrunning).fresh, ?_⟩
      intro w hw hfit
      obtain ⟨part, hsuffix, hdelivered⟩ := hattached.each w hw (h.inv.fits w hw)
      by_cases heq : w.addr = addr
      · subst heq
        simp only [Function.update_self] at hfit ⊢
        refine ⟨part ++ (s.links w.addr).note input, ?_, hdelivered.link hsound hl hfit⟩
        obtain ⟨front, hfront⟩ := hsuffix
        refine ⟨front, ?_⟩
        rw [recordOf_append, System.note, recordOf_note_self, ← hfront, List.append_assoc]
      · simp only [Function.update_of_ne heq]
        refine ⟨part, ?_, hdelivered⟩
        rw [recordOf_append, System.note, recordOf_note_ne (Ne.symm heq), List.append_nil]
        exact hsuffix

theorem reach_audited (hsound : codec.Sound) {sockFd : Int} {fuel : Nat} {jobs : List Int}
    (hget : p.frames.getAll fuel = .ok jobs) (hnonneg : ∀ f ∈ jobs, 0 ≤ f) {s : System}
    {record : List (Nat × Handled)}
    (h : (recorded codec p sockFd fuel hops).Reach (Machine.Onto (Fits codec p)) (s, record)) :
    Audited codec p hops s record := by
  refine Machine.Reach.recorded (P := Audited codec p hops) ?_
    (fun s record input t hs hfits hstep => hs.step hsound hfits hstep) h
  have hinv : Inv codec hops (machine codec p sockFd fuel hops).init := reach_inv hsound .init
  have hnone : ∀ w, w ∉ (Controller.start p sockFd fuel).remoteWorkers := by
    have hworkers : (Controller.start p sockFd fuel).remoteWorkers = [] :=
      start_of (fun c => c.remoteWorkers = []) fun _ hworkers _ _ _ _ => hworkers
    rw [hworkers]
    exact fun w => List.not_mem_nil
  have hstart : (machine codec p sockFd fuel hops).Reach Machine.Any
      (machine codec p sockFd fuel hops).init := .init
  have hfinished : (Controller.start p sockFd fuel).finished = [] := by
    have hpool : (Controller.start p sockFd fuel).pool = ⟨jobs, [], []⟩ := pool_start hget
    exact congrArg Pool.done hpool
  refine ⟨hinv, reach_logged hget hnonneg hstart,
    fun _ => ⟨fun _ _ => rfl, fun w hw => absurd hw (hnone w)⟩, ?_⟩
  intro f hf
  rw [show (machine codec p sockFd fuel hops).init.controller.finished = [] from hfinished] at hf
  exact absurd hf List.not_mem_nil

end System

/--
**Every frame is carried out.**  In every run of the controller and its workers, a
frame counts as finished only when one worker has carried out its whole part of the
script, in order and with nothing in between, and reported each job as done.  So when
the controller returns 0, that has been done for every frame of the range, however many
workers were lost on the way.
-/
theorem every_frame_carried_out (codec : Codec) (hsound : codec.Sound) (p : Parameters)
    (sockFd : Int) (fuel : Nat) (hops : Nat → Nat) (jobs : List Int)
    (hget : p.frames.getAll fuel = .ok jobs) (hnonneg : ∀ f ∈ jobs, 0 ≤ f)
    (s : System) (record : List (Nat × Handled))
    (h : (System.recorded codec p sockFd fuel hops).Reach (Machine.Onto (System.Fits codec p))
      (s, record)) :
    (∀ f ∈ s.controller.finished, System.CarriedOut p record f) ∧
      (s.controller.pc = .returned 0 → ∀ f ∈ jobs, System.CarriedOut p record f) := by
  have haudited := System.reach_audited hsound hget hnonneg h
  have hcontroller := System.reach_controller h.forget
  refine ⟨fun f hf => (haudited.finished f hf).carriedOut, ?_⟩
  intro hret f hf
  exact (haudited.finished f
    (Controller.all_finished hget hnonneg hcontroller hret f hf)).carriedOut

/-! One frame and one worker, up to the point where the controller returns. -/

namespace System

/-- The verdict, and what the controller does after it. -/
def ending : List Controller.Input :=
  [.recv (.ok (verdict .clean)) Controller.noFiles, .tau, .tau] ++ Controller.rest [] ++
    [.tau]

def untilReturned : List Input := untilVerdict .clean ++ ending.map .controller

/-- The system when the controller has returned, and what is on record. -/
def returnedRecord : System × List (Nat × Handled) :=
  ((recorded drpCodec Controller.oneFrame 3 5 fun _ => 0).exec
    (Machine.Onto (Fits drpCodec Controller.oneFrame)) (beginning, []) untilReturned).getD
    (beginning, [])

theorem reach_returnedRecord :
    (recorded drpCodec Controller.oneFrame 3 5 fun _ => 0).Reach
      (Machine.Onto (Fits drpCodec Controller.oneFrame)) returnedRecord :=
  Machine.Run.of_replay (by decide +kernel)

end System

theorem every_frame_carried_out_returned :
    System.CarriedOut Controller.oneFrame System.returnedRecord.2 1 :=
  (every_frame_carried_out drpCodec drpCodec_sound Controller.oneFrame 3 5 (fun _ => 0) [1]
    (by decide +kernel) (by decide) System.returnedRecord.1 System.returnedRecord.2
    System.reach_returnedRecord).2 (by decide +kernel) 1 (by decide)

end Distray
