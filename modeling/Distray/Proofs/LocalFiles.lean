/-
Which files of its own machine the controller touches.

The workers are other people's machines, and what they send is up to them.  It decides
what is written to a file of the controller's machine, and when, but never which file
that is: `copy_file_in` and `handle_copy_file_out_response` take their names from the
command line, and the number that goes into them from the range.  So one turn of
`dispatch` does the same whatever all other files hold, and with it every step.

The other half of a system of files is what the program never asks about.  Two systems that
agree on the names that can be asked for lead to the same step, and that is how it is put
that nothing else is read or written.
-/
import Distray.Transfers
import Distray.Proofs.Conservation
import Mathlib.Data.List.Nodup

namespace Distray

/-- What the files of the copies can be called; with a parameter it depends on the frame. -/
def namesOf (name : FileCopy → Bytes) (copies : List FileCopy) (frames : List Int) : List Bytes :=
  copies.flatMap fun c =>
    if c.hasParameter then frames.map (substituteParameter (name c)) else [name c]

/-- The files of this machine that are copied in. -/
def Parameters.sources (p : Parameters) (frames : List Int) : List Bytes :=
  namesOf FileCopy.source p.inCopies frames

/-- The files of this machine that others are copied out to. -/
def Parameters.destinations (p : Parameters) (frames : List Int) : List Bytes :=
  namesOf FileCopy.destination p.outCopies frames

/-- The name that is used where a copy is made. -/
theorem mem_namesOf {name : FileCopy → Bytes} {copies : List FileCopy} {frames : List Int}
    {c : FileCopy} {frame : Int} (hc : c ∈ copies) (hframe : frame ∈ -1 :: frames)
    (hmatch : decide (0 ≤ frame) = c.hasParameter) :
    substituteParameter (name c) frame ∈ namesOf name copies frames := by
  refine List.mem_flatMap.mpr ⟨c, hc, ?_⟩
  by_cases hnonneg : 0 ≤ frame
  · rw [if_pos (by rw [← hmatch, decide_eq_true hnonneg])]
    rcases List.mem_cons.mp hframe with rfl | hframe
    · exact absurd hnonneg (by decide)
    · exact List.mem_map_of_mem hframe
  · rw [if_neg (by rw [← hmatch, decide_eq_false hnonneg]; exact Bool.false_ne_true),
      substituteParameter_neg _ (by omega)]
    exact List.mem_singleton_self _

/-- Two machines whose files answer the same where some are read and others written. -/
structure Files.AgreeOn (reads writes : List Bytes) (files files' : Files) : Prop where
  openIn : ∀ name ∈ reads, files.openIn (cStr name) = files'.openIn (cStr name)
  openOut : ∀ name ∈ writes, files.openOut (cStr name) = files'.openOut (cStr name)

namespace Files.AgreeOn

variable {reads writes : List Bytes} {files files' : Files}

theorem refl (files : Files) : AgreeOn reads writes files files :=
  ⟨fun _ _ => rfl, fun _ _ => rfl⟩

theorem symm (h : AgreeOn reads writes files files') : AgreeOn reads writes files' files :=
  ⟨fun name hname => (h.openIn name hname).symm, fun name hname => (h.openOut name hname).symm⟩

theorem readFile (h : AgreeOn reads writes files files') {name : Bytes} (hname : name ∈ reads) :
    readFile files name = Distray.readFile files' name :=
  h.openIn name hname

theorem writeFile (h : AgreeOn reads writes files files') {name : Bytes} (hname : name ∈ writes)
    (content : Bytes) : writeFile files name content = Distray.writeFile files' name content :=
  congrArg Option.isSome (h.openOut name hname)

theorem stored (h : AgreeOn reads writes files files') {name : Bytes} (hname : name ∈ writes)
    (content : Bytes) : files.stored name content = files'.stored name content :=
  congrArg (Option.map fun arrived => content.take arrived) (h.openOut name hname)

end Files.AgreeOn

/-- A file was read or written that may be, and it was as the operating system answered. -/
def FileOp.Permitted (p : Parameters) (frames : List Int) (files : Files) : FileOp → Prop
  | .read name content => name ∈ p.sources frames ∧ readFile files name = some content
  | .wrote name content stored =>
      name ∈ p.destinations frames ∧ writeFile files name content = true ∧
        files.Stores name content stored

/-! ### One worker

A name is made in two places, `copy_file_in` and `handle_copy_file_out_response`, from a copy
of the list and a number.  The number is -1 or a frame of the range; and since a copy is only
made for a number of its kind, the name is one that the list has for some frame.
-/

namespace RemoteWorker

variable {codec : Codec} {p : Parameters} {frames : List Int} {files files' : Files}

/-- A worker has a frame of the range or none, and waits for a file that it asked for. -/
structure AtWork (p : Parameters) (frames : List Int) (w : RemoteWorker) : Prop where
  frame : w.frame ∈ -1 :: frames
  awaits : w.state = .receiveCopyOutFrameFile →
    ∀ c, p.outCopies[w.stateIndex]? = some c → decide (0 ≤ w.frame) = c.hasParameter

theorem Turn.atWork {w w' : RemoteWorker} (h : Turn codec p files w w') (hw : w.AtWork p frames) :
    w'.AtWork p frames := by
  refine ⟨h.same.2.2 ▸ hw.frame, ?_⟩
  intro hstate c hc
  cases h with
  | outSent hs hcopy hmatch =>
      have hcopy' : p.outCopies[w.stateIndex]? = some c := hc
      rw [hcopy, Option.some.injEq] at hcopy'
      exact hcopy' ▸ hmatch
  | inSent hpass => cases hpass <;> simp [sendRequest] at hstate
  | inFinished hpass => cases hpass <;> simp at hstate
  | inReceived hpass => cases hpass <;> simp at hstate
  | inSkipped hpass hs => cases hpass <;> simp [hs] at hstate
  | outSkipped hs => simp [hs] at hstate
  | unimplemented => exact hw.awaits hstate c hc
  | _ => simp [sendRequest] at hstate

theorem dispatch_atWork {w w' : RemoteWorker} (h : w.dispatch codec p files = .ok w')
    (hw : w.AtWork p frames) : w'.AtWork p frames :=
  dispatch_invariant (fun _ _ hw hturn => hturn.atWork hw) h hw

theorem AtWork.incoming {w : RemoteWorker} (h : w.AtWork p frames) (b : IncomingBuffer) :
    { w with incomingBuffer := b }.AtWork p frames :=
  ⟨h.frame, h.awaits⟩

theorem atWork_given (w : RemoteWorker) {frame : Int} (hframe : frame ∈ frames) :
    (w.given frame).AtWork p frames :=
  ⟨List.mem_cons_of_mem _ hframe, by simp [given]⟩

/-- What was done with files is what had been done before, and what may be. -/
def Touches (p : Parameters) (frames : List Int) (files : Files) (w w' : RemoteWorker) : Prop :=
  ∃ new, w'.fileOps = w.fileOps ++ new ∧ ∀ op ∈ new, op.Permitted p frames files

theorem Touches.of_eq {w w' : RemoteWorker} (h : w'.fileOps = w.fileOps) :
    Touches p frames files w w' :=
  ⟨[], by rw [h, List.append_nil], by simp⟩

theorem Touches.trans {w w' w'' : RemoteWorker} (h : Touches p frames files w w')
    (h' : Touches p frames files w' w'') : Touches p frames files w w'' := by
  obtain ⟨new, hnew, hpermitted⟩ := h
  obtain ⟨new', hnew', hpermitted'⟩ := h'
  refine ⟨new ++ new', by rw [hnew', hnew, List.append_assoc], ?_⟩
  intro op hop
  rcases List.mem_append.mp hop with hop | hop
  · exact hpermitted op hop
  · exact hpermitted' op hop

/-- **A turn reads a file of the list for its frame, or writes one, or touches none.** -/
theorem Turn.touches {w w' : RemoteWorker} (h : Turn codec p files w w')
    (hw : w.AtWork p frames) : Touches p frames files w w' := by
  cases h with
  | @inSent frame send recv next c content hpass hs hcopy hmatch hread =>
      refine ⟨[.read (substituteParameter c.source frame) content], ?_, ?_⟩
      · simp [fileOps, sendRequest]
      · intro op hop
        rw [List.mem_singleton.mp hop]
        refine ⟨mem_namesOf (List.mem_of_getElem? hcopy) ?_ hmatch, hread⟩
        cases hpass with
        | nonFrame => exact List.mem_cons_self
        | frame => exact hw.frame
  | @outReceived r c hs hparse htype hcopy hsuccess hwrite =>
      refine ⟨[.wrote (substituteParameter c.destination w.frame) r.copyOutResponse.content
        (files.stored (substituteParameter c.destination w.frame) r.copyOutResponse.content)],
        ?_, ?_⟩
      · simp [fileOps, decoded]
      · intro op hop
        rw [List.mem_singleton.mp hop]
        exact ⟨mem_namesOf (List.mem_of_getElem? hcopy) hw.frame (hw.awaits hs c hcopy), hwrite,
          Files.stores_of_writeFile hwrite⟩
  | sendWelcome | sendExecute | outSent => exact .of_eq (by simp [fileOps, sendRequest])
  | welcomed | inReceived | executed => exact .of_eq (by simp [fileOps, decoded])
  | inSkipped | inFinished | outSkipped | outFinished | unimplemented => exact .of_eq rfl

theorem dispatch_touches {w w' : RemoteWorker} (h : w.dispatch codec p files = .ok w')
    (hw : w.AtWork p frames) : Touches p frames files w w' := by
  refine (dispatch_invariant (P := fun w' => w'.AtWork p frames ∧ Touches p frames files w w') ?_
    h ⟨hw, .of_eq rfl⟩).2
  intro w₁ w₂ hw₁ hturn
  exact ⟨hturn.atWork hw₁.1, hw₁.2.trans (hturn.touches hw₁.1)⟩

theorem receive_touches {w w' : RemoteWorker} {r : Except Errno Bytes}
    (h : w.receive codec p files r = .ok (.ok w')) (hw : w.AtWork p frames) :
    Touches p frames files w w' := by
  obtain ⟨b, -, ⟨-, rfl⟩ | ⟨-, hdispatch⟩⟩ := receive_eq_ok h
  · exact .of_eq rfl
  · exact dispatch_touches (w := { w with incomingBuffer := b }) hdispatch (hw.incoming b)

theorem runFrame_touches {w w' : RemoteWorker} {frame : Int}
    (h : w.runFrame codec p files frame = .ok w') (hframe : frame ∈ frames) :
    Touches p frames files w w' := by
  have hgiven : Touches p frames files w (w.given frame) :=
    .of_eq (by simp [fileOps, given])
  exact hgiven.trans (dispatch_touches (runFrame_eq_ok h).2 (atWork_given w hframe))

/-! What all other files hold makes no difference. -/

theorem copyFileIn_congr (h : files.AgreeOn (p.sources frames) (p.destinations frames) files')
    (w : RemoteWorker) {frame : Int} (hframe : frame ∈ -1 :: frames) (recv next : State) :
    w.copyFileIn codec p files frame recv next = w.copyFileIn codec p files' frame recv next := by
  unfold copyFileIn
  cases hcopy : p.inCopies[w.stateIndex]? with
  | none => rfl
  | some c =>
      simp only
      by_cases hmatch : decide (0 ≤ frame) = c.hasParameter
      · have hread := h.readFile (mem_namesOf (List.mem_of_getElem? hcopy) hframe hmatch)
        simp only [if_pos hmatch, hread]
      · simp only [if_neg hmatch]

theorem handleCopyFileOutResponse_congr
    (h : files.AgreeOn (p.sources frames) (p.destinations frames) files') (w : RemoteWorker)
    (response : Response) {frame : Int} (hframe : frame ∈ -1 :: frames) {c : FileCopy}
    (hc : c ∈ p.outCopies) (hmatch : decide (0 ≤ frame) = c.hasParameter) :
    w.handleCopyFileOutResponse files response frame c
      = w.handleCopyFileOutResponse files' response frame c := by
  unfold handleCopyFileOutResponse
  have hwrite := h.writeFile (mem_namesOf hc hframe hmatch) response.copyOutResponse.content
  have hstored := h.stored (mem_namesOf hc hframe hmatch) response.copyOutResponse.content
  simp only [hwrite, hstored]

theorem dispatchStep_congr (h : files.AgreeOn (p.sources frames) (p.destinations frames) files')
    {w : RemoteWorker} (hw : w.AtWork p frames) :
    w.dispatchStep codec p files = w.dispatchStep codec p files' := by
  cases hs : w.state with
  | sendCopyInNonFrameFile =>
      simp only [dispatchStep, hs]
      exact copyFileIn_congr h w List.mem_cons_self _ _
  | sendCopyInFrameFile =>
      simp only [dispatchStep, hs]
      exact copyFileIn_congr h w hw.frame _ _
  | receiveCopyOutFrameFile =>
      simp only [dispatchStep, hs]
      cases hr : w.receiveResponse codec .copyOut with
      | ok x =>
          obtain ⟨response, w₁⟩ := x
          obtain ⟨-, -, rfl⟩ := receiveResponse_eq_ok hr
          simp only [Outcome.ok_bind]
          cases hcopy : p.outCopies[(w.decoded response).stateIndex]? with
          | none => rfl
          | some c =>
              have hframe : (w.decoded response).frame ∈ -1 :: frames := hw.frame
              simp only [handleCopyFileOutResponse_congr h (w.decoded response) response hframe
                (List.mem_of_getElem? hcopy) (hw.awaits hs c hcopy)]
      | exit why => rfl
      | hang => rfl
      | undefined => rfl
  | _ => simp only [dispatchStep, hs]

theorem dispatchLoop_congr
    (h : files.AgreeOn (p.sources frames) (p.destinations frames) files') :
    ∀ (fuel : Nat) {w : RemoteWorker}, w.AtWork p frames →
      w.dispatchLoop codec p files fuel = w.dispatchLoop codec p files' fuel := by
  intro fuel
  induction fuel with
  | zero => intro w _; rfl
  | succ fuel ih =>
      intro w hw
      rw [dispatchLoop, dispatchLoop, ← dispatchStep_congr h hw]
      cases hstep : w.dispatchStep codec p files with
      | ok w₁ => simp only [Outcome.ok_bind, ih ((turn_of_dispatchStep hstep).atWork hw)]
      | exit why => rfl
      | hang => rfl
      | undefined => rfl

theorem receive_congr (h : files.AgreeOn (p.sources frames) (p.destinations frames) files')
    {w : RemoteWorker} (hw : w.AtWork p frames) (r : Except Errno Bytes) :
    w.receive codec p files r = w.receive codec p files' r := by
  have hdispatch : ∀ b : IncomingBuffer,
      { w with incomingBuffer := b }.dispatch codec p files
        = { w with incomingBuffer := b }.dispatch codec p files' :=
    fun b => dispatchLoop_congr h _ (hw.incoming b)
  simp only [receive, hdispatch]

theorem runFrame_congr (h : files.AgreeOn (p.sources frames) (p.destinations frames) files')
    (w : RemoteWorker) {frame : Int} (hframe : frame ∈ frames) :
    w.runFrame codec p files frame = w.runFrame codec p files' frame := by
  unfold runFrame
  split
  · exact dispatchLoop_congr h _ (atWork_given w hframe)
  · rfl

end RemoteWorker

/-! ### All of them

What a step does with files it does in a call for one worker.  `Origin` says where each
worker that is there afterwards comes from: it is as it was, is new, or is what a call has
made of a worker that was there.
-/

namespace Controller

open RemoteWorker

variable {codec : Codec} {p : Parameters} {frames : List Int}

/-- There may be new workers, and some may be gone. -/
def Joins (codec : Codec) (s t : Controller) : Prop :=
  s.nextAddr ≤ t.nextAddr ∧ ∀ w' ∈ t.remoteWorkers,
    w' ∈ s.remoteWorkers ∨ ∃ addr, s.nextAddr ≤ addr ∧ Newcomer codec addr w'

theorem Joins.refl (s : Controller) : Joins codec s s :=
  ⟨Nat.le_refl _, fun _ hw => Or.inl hw⟩

theorem Joins.pc {s t : Controller} (h : Joins codec s t) (pc : Pc) :
    Joins codec s { t with pc := pc } :=
  h

theorem Joins.join {s t : Controller} (h : Joins codec s t) {w : RemoteWorker}
    (hnew : Newcomer codec t.nextAddr w) : Joins codec s (t.join w) := by
  refine ⟨Nat.le_succ_of_le h.1, ?_⟩
  intro w' hw'
  rcases List.mem_append.mp hw' with hw' | hw'
  · exact h.2 w' hw'
  · rw [List.mem_singleton.mp hw']
    exact Or.inr ⟨t.nextAddr, h.1, hnew⟩

theorem Joins.kill (s : Controller) (i index : Nat) (next : Pc) :
    Joins codec s (s.killWorker i index next) := by
  unfold killWorker
  split
  · exact .refl s
  · exact ⟨Nat.le_refl _, fun _ hw => Or.inl ((List.eraseIdx_sublist _ _).subset hw)⟩

/-- Where a worker comes from that is there after a step. -/
inductive Origin (codec : Codec) (p : Parameters) (files : Files) (s t : Controller)
    (w' : RemoteWorker) : Prop
  | kept (hw : w' ∈ s.remoteWorkers)
  | newcomer {addr : Nat} (haddr : s.nextAddr ≤ addr) (hnew : Newcomer codec addr w')
  | sent {w : RemoteWorker} {b : OutgoingBuffer} (hw : w ∈ s.remoteWorkers)
      (heq : w' = { w with outgoingBuffer := b })
  | received {w : RemoteWorker} {r : Except Errno Bytes} (hw : w ∈ s.remoteWorkers)
      (hok : w.receive codec p files r = .ok (.ok w')) (hgoing : t.pc.stopped = false)
  | given {w : RemoteWorker} {frame : Int} (hw : w ∈ s.remoteWorkers) (hframe : frame ∈ s.frames)
      (hok : w.runFrame codec p files frame = .ok w') (hgoing : t.pc.stopped = false)

def Descends (codec : Codec) (p : Parameters) (files : Files) (s t : Controller) : Prop :=
  s.nextAddr ≤ t.nextAddr ∧ ∀ w' ∈ t.remoteWorkers, Origin codec p files s t w'

theorem Joins.descends {files : Files} {s t : Controller} (h : Joins codec s t) :
    Descends codec p files s t := by
  refine ⟨h.1, ?_⟩
  intro w' hw'
  rcases h.2 w' hw' with hw | ⟨addr, haddr, hnew⟩
  · exact .kept hw
  · exact .newcomer haddr hnew

theorem Descends.set {files : Files} {s : Controller} {i : Nat} {w' : RemoteWorker}
    {frames finished handed : List Int} {pc : Pc}
    (h : Origin codec p files s { s with
      frames := frames, remoteWorkers := s.remoteWorkers.set i w', finished := finished
      handed := handed, pc := pc } w') :
    Descends codec p files s { s with
      frames := frames, remoteWorkers := s.remoteWorkers.set i w', finished := finished
      handed := handed, pc := pc } := by
  refine ⟨Nat.le_refl _, ?_⟩
  intro w₁ hw₁
  rcases List.mem_or_eq_of_mem_set hw₁ with hw₁ | rfl
  · exact .kept hw₁
  · exact h

/-- **A step calls one of the workers, or adds new ones, and leaves the others alone.** -/
theorem descends_of_move {s t : Controller} {input : Input} (hmove : Move codec p s input t) :
    Descends codec p input.files s t := by
  have hsame : ∀ pc, Descends codec p input.files s { s with pc := pc } :=
    fun pc => ((Joins.refl s).pc pc).descends
  cases hmove with
  | connect =>
      exact (connectProxies_of (fun t pc _ ht => ht.pc pc) (fun t w ht hnew => ht.join hnew)
        _ _ _ s (Joins.refl s)).descends
  | accept =>
      exact (acceptWorker_of (fun t pc _ ht => ht.pc pc) (fun t w ht hnew => ht.join hnew)
        _ _ (Joins.refl s)).descends
  | @receive r files i w hpc hin hw hfit =>
      refine receiveFrom_of (fun pc _ => hsame pc) ?_ fun _ => (Joins.kill s _ _ _).descends
      intro w' hok
      exact .set (.received (List.mem_of_getElem? hw) hok rfl)
  | @send r i w hpc hout hw hfit =>
      refine sendTo_of (fun pc _ => hsame pc) ?_
      intro w' out hok
      obtain ⟨b, -, heq⟩ := send_eq_ok hok
      exact .set (.sent (List.mem_of_getElem? hw) heq)
  | kill => exact (Joins.kill s _ _ _).descends
  | @assign files frame rest index w hpc hframes hidle hw =>
      refine after_of (fun pc _ => hsame pc) ?_
      intro w' hok
      have hframe : frame ∈ s.frames := hframes ▸ List.mem_cons_self
      exact .set (.given (List.mem_of_getElem? hw) hframe hok (by rw [hpc]; rfl))
  | polled => exact Joins.descends ⟨Nat.le_refl _, fun _ hw => Or.inl hw⟩
  | _ => exact hsame _

/-! ### What they work on -/

theorem upheld_atWork : Upheld codec p (· ∈ frames) (fun w => w.AtWork p frames) where
  newcomer hnew := by
    obtain ⟨fd, proxyIndex, rfl⟩ := hnew
    exact ⟨List.mem_cons_self, by simp [sendRequest]⟩
  incoming b hw := hw.incoming b
  outgoing _ hw := ⟨hw.frame, hw.awaits⟩
  dispatch hw h := dispatch_atWork h hw
  runFrame _ hframe h := dispatch_atWork (runFrame_eq_ok h).2 (atWork_given _ hframe)
  frame hw hne := (List.mem_cons.mp hw.frame).resolve_left hne

/-- Only numbers of the range are worked on. -/
theorem reach_atWork {ok : Controller → Input → Prop} {sockFd : Int} {fuel : Nat}
    {jobs : List Int} (hget : p.frames.getAll fuel = .ok jobs) {s : Controller}
    (h : (machine codec p sockFd fuel).Reach ok s) :
    All (· ∈ jobs) (fun w => w.AtWork p jobs) s := by
  refine reach_all upheld_atWork ?_ h
  intro jobs' hget' f hf
  rw [hget, Outcome.ok.injEq] at hget'
  exact hget' ▸ hf

/-! ### What a step does with files -/

theorem fileOpsAt_of_mem {s : Controller} (h : Objects s) {w : RemoteWorker}
    (hw : w ∈ s.remoteWorkers) : s.fileOpsAt w.addr = w.fileOps := by
  unfold fileOpsAt
  cases hfind : s.remoteWorkers.find? fun w' => w'.addr = w.addr with
  | none => exact absurd (List.find?_eq_none.mp hfind w hw) (by simp)
  | some w' =>
      have haddr : w'.addr = w.addr := by simpa using List.find?_some hfind
      have hmem := List.mem_of_find?_eq_some hfind
      rw [List.inj_on_of_nodup_map h.addrs hmem hw haddr]

theorem fileOpsAt_fresh {s : Controller} (h : Objects s) {addr : Nat} (haddr : s.nextAddr ≤ addr) :
    s.fileOpsAt addr = [] := by
  unfold fileOpsAt
  cases hfind : s.remoteWorkers.find? fun w => w.addr = addr with
  | none => rfl
  | some w =>
      have heq : w.addr = addr := by simpa using List.find?_some hfind
      have hlt := h.addrs_lt w (List.mem_of_find?_eq_some hfind)
      omega

theorem Origin.addr {s t : Controller} {files : Files} {w' : RemoteWorker}
    (h : Origin codec p files s t w') :
    (∃ w ∈ s.remoteWorkers, w.addr = w'.addr) ∨ s.nextAddr ≤ w'.addr := by
  cases h with
  | kept hw => exact Or.inl ⟨w', hw, rfl⟩
  | newcomer haddr hnew => exact Or.inr (hnew.spec.2.1 ▸ haddr)
  | @sent w b hw heq => exact Or.inl ⟨w, hw, by rw [heq]⟩
  | @received w r hw hok => exact Or.inl ⟨w, hw, (receive_same hok).1.symm⟩
  | @given w frame hw hframe hok => exact Or.inl ⟨w, hw, (runFrame_same hok).1.symm⟩

/-- Nothing that a worker has done with files is undone, and what it adds may be done. -/
theorem Origin.touches {s t : Controller} {files : Files} {w' : RemoteWorker}
    (h : Origin codec p files s t w') (hobjects : Objects s)
    (hwork : All (· ∈ frames) (fun w => w.AtWork p frames) s) :
    ∃ new, w'.fileOps = s.fileOpsAt w'.addr ++ new ∧
      (∀ op ∈ new, op.Permitted p frames files) ∧ (t.pc.stopped = true → new = []) := by
  have hsame : w'.fileOps = s.fileOpsAt w'.addr →
      ∃ new, w'.fileOps = s.fileOpsAt w'.addr ++ new ∧
        (∀ op ∈ new, op.Permitted p frames files) ∧ (t.pc.stopped = true → new = []) :=
    fun heq => ⟨[], by rw [heq, List.append_nil], by simp, fun _ => rfl⟩
  have hcalled : ∀ w ∈ s.remoteWorkers, w'.addr = w.addr → Touches p frames files w w' →
      t.pc.stopped = false →
      ∃ new, w'.fileOps = s.fileOpsAt w'.addr ++ new ∧
        (∀ op ∈ new, op.Permitted p frames files) ∧ (t.pc.stopped = true → new = []) := by
    intro w hw haddr htouches hgoing
    rw [haddr, fileOpsAt_of_mem hobjects hw]
    obtain ⟨new, hnew, hpermitted⟩ := htouches
    exact ⟨new, hnew, hpermitted, fun hstopped => absurd (hgoing.symm.trans hstopped) (by simp)⟩
  cases h with
  | kept hw => exact hsame (fileOpsAt_of_mem hobjects hw).symm
  | @newcomer addr haddr hnew =>
      obtain ⟨fd, proxyIndex, rfl⟩ := hnew
      exact hsame (fileOpsAt_fresh hobjects haddr).symm
  | @sent w b hw heq =>
      subst heq
      exact hsame (fileOpsAt_of_mem hobjects hw).symm
  | @received w r hw hok hgoing =>
      exact hcalled w hw (receive_same hok).1 (receive_touches hok (hwork.workers w hw)) hgoing
  | @given w frame hw hframe hok hgoing =>
      exact hcalled w hw (runFrame_same hok).1 (runFrame_touches hok (hwork.frames frame hframe))
        hgoing

/-- What a step does with files is what its traces have gained. -/
theorem mem_touched {s : Controller} {input : Input} {entry : Nat × FileOp}
    (h : entry ∈ s.touched codec p input) :
    ∃ t, step codec p s input = some t ∧ ∃ w' ∈ t.remoteWorkers, w'.addr = entry.1 ∧
      entry.2 ∈ w'.fileOps.drop (s.fileOpsAt w'.addr).length := by
  unfold touched at h
  cases hstep : step codec p s input with
  | none => simp [hstep] at h
  | some t =>
      simp only [hstep, List.mem_flatMap, List.mem_map] at h
      obtain ⟨w', hw', op, hop, rfl⟩ := h
      exact ⟨t, rfl, w', hw', rfl, hop⟩

theorem permitted_of_touched {s : Controller} {input : Input} (hobjects : Objects s)
    (hwork : All (· ∈ frames) (fun w => w.AtWork p frames) s) {entry : Nat × FileOp}
    (h : entry ∈ s.touched codec p input) : entry.2.Permitted p frames input.files := by
  obtain ⟨t, hstep, w', hw', -, hop⟩ := mem_touched h
  obtain ⟨new, hnew, hpermitted, -⟩ :=
    ((descends_of_move (move_of_step hstep)).2 w' hw').touches hobjects hwork
  rw [hnew, List.drop_left] at hop
  exact hpermitted _ hop

/-! ### What a step depends on

Two systems of files that agree on the names of the lists give every call the same answers.
So the whole step is the same, and not only what it puts on record: the state after it, the
bytes that go out and the way it ends, if it ends the program.
-/

theorem connectProxies_congr (fd : Nat → Int) (files files' : Files) :
    ∀ (ks : List Nat) (s : Controller),
      connectProxies codec p fd files ks s = connectProxies codec p fd files' ks s := by
  intro ks
  induction ks with
  | nil => intro s; rfl
  | cons k rest ih =>
      intro s
      rw [connectProxies_cons, connectProxies_cons, ih]

theorem step_withFiles {s t : Controller} {input : Input} {files' : Files}
    (hwork : All (· ∈ frames) (fun w => w.AtWork p frames) s)
    (h : input.files.AgreeOn (p.sources frames) (p.destinations frames) files')
    (hstep : step codec p s input = some t) :
    step codec p s (input.withFiles files') = some t := by
  cases move_of_step hstep with
  | @connect fd files hpc =>
      simp only [step, hpc] at hstep
      simp only [Input.withFiles, step, hpc, connectProxies_congr fd files' files]
      exact hstep
  | @accept fd files hpc hin =>
      simp only [Input.withFiles, step, hpc, hin, if_true, acceptWorker_eq]
  | @receive r files i w hpc hin hw hfit =>
      have hcall : w.receive codec p files r = w.receive codec p files' r :=
        receive_congr h (hwork.workers w (List.mem_of_getElem? hw)) r
      simp only [Input.withFiles, step, hpc, hin, hw, hfit, if_true, receiveFrom, hcall]
  | @assign files frame rest index w hpc hframes hidle hw =>
      have hframe : frame ∈ frames := hwork.frames frame (hframes ▸ List.mem_cons_self)
      have hcall : w.runFrame codec p files frame = w.runFrame codec p files' frame :=
        runFrame_congr h w hframe
      simp only [Input.withFiles, step, hpc, hframes, hidle, hw, handOut, hcall]
  | _ => exact hstep

/-- **A step is the same whatever the other files of this machine hold.** -/
theorem step_congr {s : Controller} {input : Input} {files' : Files}
    (hwork : All (· ∈ frames) (fun w => w.AtWork p frames) s)
    (h : input.files.AgreeOn (p.sources frames) (p.destinations frames) files') :
    step codec p s (input.withFiles files') = step codec p s input := by
  have hback : (input.withFiles files').withFiles input.files = input := by
    cases input <;> rfl
  have hagree : (input.withFiles files').files.AgreeOn (p.sources frames) (p.destinations frames)
      input.files := by
    cases input with
    | connect fd files => exact h.symm
    | accept fd files => exact h.symm
    | recv r files => exact h.symm
    | assign files => exact h.symm
    | tau => exact .refl _
    | poll result revents => exact .refl _
    | send r => exact .refl _
  refine Option.ext fun t => ⟨fun hstep => ?_, fun hstep => step_withFiles hwork h hstep⟩
  rw [← hback]
  exact step_withFiles hwork hagree hstep

/--
**The controller keeps to its files.**  Whatever arrives, in every state that it reaches: a
step is the same, and so is the way it ends, whatever all files hold but the sources of the
copies in and the destinations of the copies out, with the numbers of the range filled in;
and each file that the step reads or writes is one of these, read as it was.
-/
theorem keeps_to_its_files (codec : Codec) (p : Parameters) (sockFd : Int) (fuel : Nat)
    (jobs : List Int) (hget : p.frames.getAll fuel = .ok jobs) (s : Controller)
    (h : (machine codec p sockFd fuel).Reach Machine.Any s) (input : Input) :
    (∀ files', input.files.AgreeOn (p.sources jobs) (p.destinations jobs) files' →
      step codec p s (input.withFiles files') = step codec p s input) ∧
    ∀ entry ∈ s.touched codec p input, entry.2.Permitted p jobs input.files := by
  have hwork := reach_atWork hget h
  exact ⟨fun files' hagree => step_congr hwork hagree,
    fun entry hentry => permitted_of_touched (reach_objects h) hwork hentry⟩

/-! One image is copied out. -/

def oneImage : Parameters :=
  { oneFrame with outCopies := [.make (bytes "image%d") (bytes "out/%d")] }

def copiedOut : Response :=
  { requestType? := some .copyOut
    copyOutResponse? := some { success? := some true, content? := some (bytes "pixels") } }

/-- Up to the point where the image is about to be received. -/
def untilImage : List Input :=
  arrival ++ requested 6 ++ answering welcomed ++ answered { pollin := true } welcomed ++
    [.tau, .tau] ++ rest [.assign noFiles] ++ requested 16 ++ answering executed ++
    answered { pollin := true } executed ++ [.tau, .tau] ++ rest [] ++
    requested (frame (drpCodec.serializeRequest (copyOutRequest (bytes "image1")))).length ++
    answering copiedOut ++ reported { pollin := true }

def beforeImage : Controller :=
  ((machine drpCodec oneImage 3 5).exec Machine.Any (start oneImage 3 5) untilImage).getD
    (start oneImage 3 5)

theorem reach_beforeImage : (machine drpCodec oneImage 3 5).Reach Machine.Any beforeImage :=
  Machine.Run.of_replay (by decide +kernel)

/-- There is room. -/
def receivingImage : Input :=
  .recv (.ok (drpCodec.serializeResponse copiedOut)) ⟨fun _ => none, fun _ => some 6⟩

example : beforeImage.touched drpCodec oneImage receivingImage
    = [(0, .wrote (bytes "out/1") (bytes "pixels") (some (bytes "pixels")))] := by
  decide +kernel

theorem keeps_to_its_files_image :
    (∀ files', receivingImage.files.AgreeOn (oneImage.sources [1]) (oneImage.destinations [1])
      files' → step drpCodec oneImage beforeImage (receivingImage.withFiles files')
        = step drpCodec oneImage beforeImage receivingImage) ∧
    ∀ entry ∈ beforeImage.touched drpCodec oneImage receivingImage,
      entry.2.Permitted oneImage [1] receivingImage.files :=
  keeps_to_its_files drpCodec oneImage 3 5 [1] (by decide +kernel) beforeImage reach_beforeImage
    receivingImage

end Controller

end Distray
