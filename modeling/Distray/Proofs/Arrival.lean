/-
What has arrived where.

A copy in begins with a file of the controller's machine and a copy out ends with one, and
between the two there are buffers, queues and another machine.  The request that a worker
deals with holds what was read, and what is written is what a worker has read when it was
asked to, after it had run the program for that frame.  So nothing else is ever written;
and when the work is done, there is for each frame one worker whose files went out and came
back.
-/
import Distray.Proofs.LocalFiles
import Distray.Proofs.Carried

namespace Distray

/-! ### What a trace shows of files -/

/-- The file that is read for a job, with what the request says it held. -/
def Job.reads (request : Request) : Job → List (Bytes × Bytes)
  | .copyIn source _ => [(source, request.copyInRequest.content)]
  | _ => []

namespace RemoteWorker

variable {p : Parameters}

theorem read_fileOps (w : RemoteWorker) :
    w.fileOps.filterMap FileOp.read? = w.requests.filterMap Prod.snd := by
  simp only [fileOps, requests, Event.history, List.filterMap_reverse, List.filterMap_filterMap]
  congr 2
  funext event
  cases event with
  | setMessage request source needSend => cases source <;> rfl
  | _ => rfl

theorem wrote_fileOps (w : RemoteWorker) : w.fileOps.filterMap FileOp.wrote? = w.written := by
  simp only [fileOps, written, Event.history, List.filterMap_reverse, List.filterMap_filterMap]
  congr 2
  funext event
  cases event with
  | setMessage request source needSend => cases source <;> rfl
  | _ => rfl

/-- What was read for a request is what the request holds. -/
theorem source_of_asks {job : Job} {request : Request} {source : Option (Bytes × Bytes)}
    (h : job.Asks request source) : source.toList = job.reads request := by
  cases job with
  | copyIn src dst =>
      obtain ⟨content, rfl, rfl⟩ := h
      rfl
  | welcome => rw [h.2]; rfl
  | execute executable arguments => rw [h.2]; rfl
  | copyOut src dst => rw [h.2]; rfl

/-- The jobs that are done have had their files read, in order. -/
theorem Logged.reads {w : RemoteWorker} {log : List Exchange} {pending : Option Asked}
    (h : Logged p w log pending) :
    (log.flatMap fun x => x.job.reads x.request) <+: w.fileOps.filterMap FileOp.read? := by
  have hlog : ∀ l : List Exchange, (∀ x ∈ l, x.job.Asks x.request x.source) →
      (l.map fun x => x.sent).filterMap Prod.snd = l.flatMap fun x => x.job.reads x.request := by
    intro l
    induction l with
    | nil => intro _; rfl
    | cons x rest ih =>
        intro hasks
        have hx : x.sent.2.toList = _ := source_of_asks (hasks x List.mem_cons_self)
        rw [List.map_cons, List.flatMap_cons, ← hx,
          ← ih fun y hy => hasks y (List.mem_cons_of_mem _ hy)]
        cases hread : x.sent.2 with
        | none => rw [List.filterMap_cons_none hread]; rfl
        | some file => rw [List.filterMap_cons_some hread]; rfl
  rw [read_fileOps, h.requests, List.filterMap_append, hlog log h.asks]
  exact List.prefix_append _ _

end RemoteWorker

/-! ### What a job was for

A copy out stands in the script only behind the program of its frame.  So where a script is
cut at a copy out, what is before it has the program in it; and a worker that has been asked
for the copy has carried out all that was before.
-/

theorem copyOut_not_mem_frameIns (source destination : Bytes) (frame : Int)
    (copies : List FileCopy) : Job.copyOut source destination ∉ frameIns frame copies := by
  intro h
  obtain ⟨c, -, hc⟩ := List.mem_map.mp h
  exact absurd hc (by simp)

theorem copyOut_not_mem_plainIns (source destination : Bytes) (copies : List FileCopy) :
    Job.copyOut source destination ∉ plainIns copies := by
  intro h
  obtain ⟨c, -, hc⟩ := List.mem_map.mp h
  exact absurd hc (by simp)

/-- **A file is copied out for a frame, after the program has been run for it.** -/
theorem copyOut_of_frameScript {p : Parameters} {frame : Int} {before after : List Job}
    {source destination : Bytes}
    (h : frameScript p frame = before ++ .copyOut source destination :: after) :
    executeJob p frame ∈ before ∧ ∃ c ∈ p.outCopies, c.hasParameter = true ∧
      source = substituteParameter c.source frame ∧
      destination = substituteParameter c.destination frame := by
  rw [frameScript, List.append_eq_append_iff] at h
  rcases h with ⟨more, rfl, houts⟩ | ⟨more, hins, hmore⟩
  · cases more with
    | nil => exact absurd (List.cons.inj houts).1 (by simp [executeJob])
    | cons job more =>
        obtain ⟨rfl, hcopies⟩ := List.cons.inj houts
        refine ⟨by simp, ?_⟩
        have hmem : Job.copyOut source destination ∈ frameOuts frame p.outCopies := by
          rw [hcopies]
          simp
        obtain ⟨c, hc, heq⟩ := List.mem_map.mp hmem
        obtain ⟨hc, hparameter⟩ := List.mem_filter.mp hc
        obtain ⟨rfl, rfl⟩ := Job.copyOut.inj heq
        exact ⟨c, hc, hparameter, rfl, rfl⟩
  · cases more with
    | nil => exact absurd (List.cons.inj hmore).1 (by simp [executeJob])
    | cons job more =>
        obtain ⟨rfl, -⟩ := List.cons.inj hmore
        refine absurd ?_ (copyOut_not_mem_frameIns source destination frame p.inCopies)
        rw [hins]
        simp

/-- The same in a whole script. -/
theorem copyOut_of_script {p : Parameters} {frames : List Int} {before after : List Job}
    {source destination : Bytes}
    (h : script p frames = before ++ .copyOut source destination :: after) :
    ∃ frame ∈ frames, executeJob p frame ∈ before ∧ ∃ c ∈ p.outCopies, c.hasParameter = true ∧
      source = substituteParameter c.source frame ∧
      destination = substituteParameter c.destination frame := by
  have hframes : ∀ {more : List Job},
      frames.flatMap (frameScript p) = more ++ .copyOut source destination :: after →
      more <:+ before →
      ∃ frame ∈ frames, executeJob p frame ∈ before ∧ ∃ c ∈ p.outCopies, c.hasParameter = true ∧
        source = substituteParameter c.source frame ∧
        destination = substituteParameter c.destination frame := by
    intro more hmore hsuffix
    obtain ⟨frame, hframe, before', after', hpart, hbefore'⟩ := Parts.exists_of_flatMap_eq hmore
    obtain ⟨hexecute, hcopy⟩ := copyOut_of_frameScript hpart
    exact ⟨frame, hframe, (hbefore'.trans hsuffix).subset hexecute, hcopy⟩
  rw [script, List.append_eq_append_iff] at h
  rcases h with ⟨more, rfl, hrest⟩ | ⟨more, hplain, hmore⟩
  · exact hframes hrest (List.suffix_append _ _)
  · cases more with
    | nil =>
        have hwhole : frames.flatMap (frameScript p)
            = [] ++ .copyOut source destination :: after := hmore.symm
        exact hframes hwhole List.nil_suffix
    | cons job more =>
        obtain ⟨rfl, -⟩ := List.cons.inj hmore
        have hmem : Job.copyOut source destination ∈ Job.welcome :: plainIns p.inCopies := by
          rw [hplain]
          simp
        rcases List.mem_cons.mp hmem with heq | hmem
        · exact absurd heq (by simp)
        · exact absurd hmem (copyOut_not_mem_plainIns _ _ _)

/-! ### One worker

The log of the controller's end and the record of the other end are two lists that agree in
their requests and responses.  Put together, they say of each job what was read here, what
was done there, and what was written here.
-/

/-- The jobs of one worker that are done, with what its end has to show for each of them. -/
structure Conveyed (history : List Handled) (read wrote : List (Bytes × Bytes))
    (log : List (Job × Handled)) : Prop where
  handled : log.map Prod.snd <:+: history
  done : ∀ x ∈ log, AskedFor x.1 x.2 ∧ Done x.1 x.2
  read : (log.flatMap fun x => x.1.reads x.2.request) <+: read
  wrote : (log.flatMap fun x => x.1.writes x.2.response) <+: wrote

theorem Conveyed.mono {history new : List Handled} {read wrote more more' : List (Bytes × Bytes)}
    {log : List (Job × Handled)} (h : Conveyed history read wrote log) :
    Conveyed (history ++ new) (read ++ more) (wrote ++ more') log :=
  ⟨h.handled.trans (List.prefix_append _ _).isInfix, h.done,
    h.read.trans (List.prefix_append _ _), h.wrote.trans (List.prefix_append _ _)⟩

/-- An exchange is what went on record at the other end. -/
def Exchange.Matches (x : Exchange) (y : Handled) : Prop :=
  x.request = y.request ∧ x.response = y.response

/-- The log of one end, with what the other end has on record. -/
theorem exists_conveyed {log : List Exchange} {entries : List Handled}
    (h : List.Forall₂ Exchange.Matches log entries) :
    ∃ l : List (Job × Handled), l.map Prod.fst = (log.map fun x => x.job) ∧
      l.map Prod.snd = entries ∧
      (∀ y ∈ l, ∃ x ∈ log, y.1 = x.job ∧ x.Matches y.2) ∧
      (l.flatMap fun y => y.1.reads y.2.request) = (log.flatMap fun x => x.job.reads x.request) ∧
      (l.flatMap fun y => y.1.writes y.2.response)
        = log.flatMap fun x => x.job.writes x.response := by
  induction h with
  | nil => exact ⟨[], rfl, rfl, by simp, rfl, rfl⟩
  | @cons x y log entries hmatch hrest ih =>
      obtain ⟨l, hjobs, hentries, hmatches, hreads, hwrites⟩ := ih
      refine ⟨(x.job, y) :: l, by rw [List.map_cons, hjobs]; rfl, by rw [List.map_cons, hentries],
        ?_, ?_, ?_⟩
      · intro z hz
        rcases List.mem_cons.mp hz with rfl | hz
        · exact ⟨x, List.mem_cons_self, rfl, hmatch⟩
        · obtain ⟨x', hx', hz⟩ := hmatches z hz
          exact ⟨x', List.mem_cons_of_mem _ hx', hz⟩
      · rw [List.flatMap_cons, List.flatMap_cons, hreads, hmatch.1]
      · rw [List.flatMap_cons, List.flatMap_cons, hwrites, hmatch.2]

namespace Delivered

variable {codec : Codec} {p : Parameters} {history : List Handled} {w : RemoteWorker} {l : Link}

/-- What has been answered is the beginning of what the other end has dealt with. -/
theorem matched (h : Delivered codec history w l) {log : List Exchange} {pending : Option Asked}
    (hlog : w.Logged p log pending) :
    ∃ entries, entries <+: history ∧ List.Forall₂ Exchange.Matches log entries := by
  obtain ⟨hrequests, -, hresponses, -⟩ := h.spec
  rw [RemoteWorker.asked, hlog.requests, List.map_append, List.map_map] at hrequests
  rw [hlog.responses] at hresponses
  have hle : log.length ≤ history.length := by
    have hlen := hresponses.length_le
    rwa [List.length_map, List.length_map] at hlen
  refine ⟨history.take log.length, List.take_prefix _ _, ?_⟩
  have hrequest : (log.map fun x => x.request)
      = (history.take log.length).map Handled.request := by
    have htake := List.prefix_of_prefix_length_le
      (((List.take_prefix log.length history).map Handled.request).trans hrequests)
      (List.prefix_append _ _) (by simp)
    refine (htake.eq_of_length ?_).symm
    simp only [List.length_map, List.length_take]
    omega
  have hresponse : log.map Exchange.response
      = (history.take log.length).map Handled.response := by
    rw [List.prefix_iff_eq_take, List.length_map] at hresponses
    rw [hresponses, List.map_take]
  have hboth : (log.map fun x => (x.request, x.response))
      = (history.take log.length).map fun y => (y.request, y.response) := by
    rw [← List.zip_map', ← List.zip_map', hrequest, hresponse]
  refine Parts.forall₂_of_map_eq hboth ?_
  intro x _ y _ heq
  exact Prod.mk.inj heq

/-- **What a worker's end has done is there, and what it has read and written.** -/
theorem conveyed (h : Delivered codec history w l) {log : List Exchange} {pending : Option Asked}
    (hlog : w.Logged p log pending) :
    ∃ done, done.map Prod.fst = (log.map fun x => x.job) ∧
      Conveyed history (w.fileOps.filterMap FileOp.read?) (w.fileOps.filterMap FileOp.wrote?)
        done ∧
      w.fileOps.filterMap FileOp.wrote? = done.flatMap fun x => x.1.writes x.2.response := by
  obtain ⟨entries, hprefix, hmatches⟩ := h.matched hlog
  obtain ⟨done, hjobs, hentries, hdone, hreads, hwrites⟩ := exists_conveyed hmatches
  have hwritten : w.fileOps.filterMap FileOp.wrote?
      = done.flatMap fun x => x.1.writes x.2.response := by
    rw [w.wrote_fileOps, hlog.written, hwrites]
  refine ⟨done, hjobs, ⟨hentries ▸ hprefix.isInfix, ?_, hreads ▸ hlog.reads, ?_⟩, hwritten⟩
  · intro y hy
    obtain ⟨x, hx, hjob, hrequest, hresponse⟩ := hdone y hy
    rw [hjob]
    refine ⟨⟨x.source, hrequest ▸ hlog.asks x hx⟩, ?_⟩
    show x.job.Answers y.2.response
    exact hresponse ▸ hlog.answers x hx
  · exact hwritten ▸ List.prefix_refl _

end Delivered

/-! ### What a file that was copied out holds -/

/-- A copy out that was reported as done has read its file. -/
theorem readFile_of_done {source destination : Bytes} {y : Handled}
    (hasked : AskedFor (.copyOut source destination) y)
    (hdone : Done (.copyOut source destination) y) :
    readFile y.env.files source = some y.response.copyOutResponse.content := by
  obtain ⟨_, hrequest, -⟩ := hasked
  have hsuccess : (Worker.handle y.env y.request).copyOutResponse.success = true := hdone.2
  have hresponse : (Worker.handle y.env y.request).copyOutResponse
      = Worker.handleCopyOut y.env ⟨some source⟩ := by
    rw [hrequest]
    rfl
  show _ = some (Worker.handle y.env y.request).copyOutResponse.content
  rw [hresponse] at hsuccess ⊢
  unfold Worker.handleCopyOut at hsuccess ⊢
  have hpathname : (CopyOutRequest.mk (some source)).pathname = source := rfl
  simp only [hpathname] at hsuccess ⊢
  split at hsuccess
  · exact absurd hsuccess (by simp [CopyOutResponse.success])
  · rename_i hlocal
    rw [if_neg hlocal]
    cases hread : readFile y.env.files source with
    | none => simp [hread, CopyOutResponse.success] at hsuccess
    | some content => rfl

/--
A file with this name and content was copied out for a frame: a worker had run the program
for it with success, and read the content later, when it was asked for the file.
-/
def Fetched (p : Parameters) (frames : List Int) (history : List Handled)
    (name content : Bytes) : Prop :=
  ∃ frame ∈ frames, ∃ c ∈ p.outCopies, c.hasParameter = true ∧
    name = substituteParameter c.destination frame ∧
    ∃ x y, [x, y].Sublist history ∧ AskedFor (executeJob p frame) x ∧ Done (executeJob p frame) x ∧
      AskedFor (.copyOut (substituteParameter c.source frame) name) y ∧
      readFile y.env.files (substituteParameter c.source frame) = some content

theorem Fetched.mono {p : Parameters} {frames : List Int} {history new : List Handled}
    {name content : Bytes} (h : Fetched p frames history name content) :
    Fetched p frames (history ++ new) name content := by
  obtain ⟨frame, hframe, c, hc, hparameter, hname, x, y, hsublist, hrest⟩ := h
  exact ⟨frame, hframe, c, hc, hparameter, hname, x, y,
    hsublist.trans (List.sublist_append_left _ _), hrest⟩

/-- **A file that is written for a job has been copied out for a frame.** -/
theorem Conveyed.fetched {p : Parameters} {frames given : List Int} {history : List Handled}
    {read wrote : List (Bytes × Bytes)} {log : List (Job × Handled)} {rest : List Job}
    (h : Conveyed history read wrote log) (hscript : script p given = log.map Prod.fst ++ rest)
    (hgiven : ∀ f ∈ given, f ∈ frames)
    {name content : Bytes}
    (hfile : (name, content) ∈ log.flatMap fun x => x.1.writes x.2.response) :
    Fetched p frames history name content := by
  obtain ⟨⟨job, y⟩, hy, hwrites⟩ := List.mem_flatMap.mp hfile
  cases job with
  | copyOut source destination =>
      rw [Job.writes, List.mem_singleton, Prod.mk.injEq] at hwrites
      obtain ⟨rfl, rfl⟩ := hwrites
      obtain ⟨before, after, rfl⟩ := List.append_of_mem hy
      rw [List.map_append, List.map_cons, List.append_assoc] at hscript
      obtain ⟨frame, hframe, hexecute, c, hc, hparameter, rfl, rfl⟩ := copyOut_of_script hscript
      obtain ⟨⟨job, x⟩, hx, hjob⟩ := List.mem_map.mp hexecute
      obtain rfl : job = executeJob p frame := hjob
      have hdone := h.done _ hy
      have hexecuted := h.done _ (List.mem_append_left _ hx)
      refine ⟨frame, hgiven frame hframe, c, hc, hparameter, rfl, x, y, ?_, hexecuted.1,
        hexecuted.2, hdone.1, readFile_of_done hdone.1 hdone.2⟩
      have hran : x ∈ before.map Prod.snd := List.mem_map.mpr ⟨_, hx, rfl⟩
      have hpair : [x, y].Sublist (before.map Prod.snd ++ y :: after.map Prod.snd) :=
        (List.singleton_sublist.mpr hran).append
          (List.cons_sublist_cons.mpr (List.nil_sublist _))
      have hhandled := h.handled.sublist
      rw [List.map_append, List.map_cons] at hhandled
      exact hpair.trans hhandled
  | welcome => simp [Job.writes] at hwrites
  | copyIn source destination => simp [Job.writes] at hwrites
  | execute executable arguments => simp [Job.writes] at hwrites

/-! ### All the workers of a system

The record of a system has the entries of all workers in one list, and a worker that is lost
leaves its entries behind.  So the invariant is about what is on record at an address: as
long as the worker is there its trace says the same, and after that nothing is added.
-/

namespace Controller

open RemoteWorker

variable {codec : Codec} {p : Parameters} {frames : List Int}

/-- The frames that a worker was ever given are of the range. -/
theorem upheld_given :
    Upheld codec p (· ∈ frames) (fun w => w.AtWork p frames ∧ ∀ f ∈ w.framesGiven, f ∈ frames) where
  newcomer hnew := by
    refine ⟨upheld_atWork.newcomer hnew, ?_⟩
    obtain ⟨fd, proxyIndex, rfl⟩ := hnew
    simp [framesGiven, sendRequest, make, Event.history]
  incoming b hw := ⟨hw.1.incoming b, hw.2⟩
  outgoing _ hw := ⟨⟨hw.1.frame, hw.1.awaits⟩, hw.2⟩
  dispatch hw h := ⟨dispatch_atWork h hw.1, dispatch_framesGiven h ▸ hw.2⟩
  runFrame {w w' files frame} hw hframe h := by
    refine ⟨upheld_atWork.runFrame hw.1 hframe h, ?_⟩
    have hgiven : w'.framesGiven = w.framesGiven ++ [frame] := by
      rw [dispatch_framesGiven (runFrame_eq_ok h).2]
      simp [framesGiven, given]
    intro f hf
    rw [hgiven, List.mem_append, List.mem_singleton] at hf
    rcases hf with hf | rfl
    · exact hw.2 f hf
    · exact hframe
  frame hw hne := (List.mem_cons.mp hw.1.frame).resolve_left hne

/-- What a step does with files for one worker. -/
def touchedAt (codec : Codec) (p : Parameters) (s : Controller) (input : Input) (addr : Nat) :
    List FileOp :=
  (s.touched codec p input).filterMap fun entry => if entry.1 = addr then some entry.2 else none

/-- Nothing is done for a worker that is not there. -/
theorem at_nobody {ws : List RemoteWorker} {addr : Nat} (hnobody : ∀ w ∈ ws, w.addr ≠ addr)
    (ops : RemoteWorker → List FileOp) :
    (ws.flatMap fun w => (ops w).map fun op => (w.addr, op)).filterMap
      (fun entry => if entry.1 = addr then some entry.2 else none) = [] := by
  rw [List.filterMap_eq_nil_iff]
  intro entry hentry
  obtain ⟨w, hw, hop⟩ := List.mem_flatMap.mp hentry
  obtain ⟨op, -, rfl⟩ := List.mem_map.mp hop
  exact if_neg (hnobody w hw)

/-- What is done for one that is there, is done for no other. -/
theorem at_somebody {ws : List RemoteWorker} (hnodup : (ws.map RemoteWorker.addr).Nodup)
    {w : RemoteWorker} (hw : w ∈ ws) (ops : RemoteWorker → List FileOp) :
    (ws.flatMap fun w => (ops w).map fun op => (w.addr, op)).filterMap
      (fun entry => if entry.1 = w.addr then some entry.2 else none) = ops w := by
  obtain ⟨before, after, rfl⟩ := List.append_of_mem hw
  rw [List.map_append, List.map_cons, List.nodup_append] at hnodup
  obtain ⟨-, hafter, hdisjoint⟩ := hnodup
  have hbefore : ∀ w' ∈ before, w'.addr ≠ w.addr := fun w' hw' =>
    hdisjoint _ (List.mem_map_of_mem hw') _ List.mem_cons_self
  have hrest : ∀ w' ∈ after, w'.addr ≠ w.addr := by
    intro w' hw' heq
    exact (List.nodup_cons.mp hafter).1 (heq ▸ List.mem_map_of_mem hw')
  rw [List.flatMap_append, List.filterMap_append, at_nobody hbefore, List.nil_append,
    List.flatMap_cons, List.filterMap_append, at_nobody hrest, List.append_nil,
    List.filterMap_map]
  simp

/-- **What a step does with files for a worker is what the worker's trace has gained.** -/
theorem touchedAt_of_mem {s t : Controller} {input : Input} (hstep : step codec p s input = some t)
    (hobjects : Objects s) (hobjects' : Objects t)
    (hwork : All (· ∈ frames) (fun w => w.AtWork p frames) s) {w' : RemoteWorker}
    (hw' : w' ∈ t.remoteWorkers) :
    w'.fileOps = s.fileOpsAt w'.addr ++ s.touchedAt codec p input w'.addr ∧
      (t.pc.stopped = true → s.touchedAt codec p input w'.addr = []) := by
  obtain ⟨new, hnew, -, hquiet⟩ :=
    ((descends_of_move (move_of_step hstep)).2 w' hw').touches hobjects hwork
  have hdrop : s.touchedAt codec p input w'.addr = new := by
    unfold touchedAt touched
    rw [hstep]
    simp only
    have hgained := at_somebody hobjects'.addrs hw'
      (fun w => w.fileOps.drop (s.fileOpsAt w.addr).length)
    rw [hgained, hnew, List.drop_left]
  rw [hdrop]
  exact ⟨hnew, hquiet⟩

theorem touchedAt_nobody {s t : Controller} {input : Input}
    (hstep : step codec p s input = some t) {addr : Nat}
    (hnobody : ∀ w ∈ t.remoteWorkers, w.addr ≠ addr) : s.touchedAt codec p input addr = [] := by
  unfold touchedAt touched
  rw [hstep]
  exact at_nobody hnobody _

end Controller

namespace System

open RemoteWorker Controller

variable {codec : Codec} {p : Parameters} {hops : Nat → Nat}

@[simp] theorem handledIn_append (record new : List Entry) :
    handledIn (record ++ new) = handledIn record ++ handledIn new := by
  simp [handledIn]

@[simp] theorem fileOpsIn_append (addr : Nat) (record new : List Entry) :
    fileOpsIn addr (record ++ new) = fileOpsIn addr record ++ fileOpsIn addr new := by
  simp [fileOpsIn]

theorem handledIn_noteBoth (s : System) (input : Input) :
    handledIn (noteBoth codec p s input) = s.note input := by
  unfold noteBoth
  rw [handledIn_append]
  have hhandled : ∀ l : List (Nat × Handled),
      handledIn (l.map fun entry => (entry.1, .inl entry.2)) = l := by
    intro l
    simp [handledIn, List.filterMap_map, Function.comp_def]
  have htouched : ∀ (l : List (Nat × FileOp)) (files : Files),
      handledIn (l.map fun entry => (entry.1, .inr (entry.2, files))) = [] := by
    intro l files
    simp [handledIn, List.filterMap_map, Function.comp_def]
  rw [hhandled]
  cases input with
  | controller input => simp only [htouched, List.append_nil]
  | link addr input => exact List.append_nil _

theorem fileOpsIn_link (s : System) (addr addr' : Nat) (input : Link.Input) :
    fileOpsIn addr (noteBoth codec p s (.link addr' input)) = [] := by
  simp [fileOpsIn, noteBoth]

theorem fileOpsIn_controller (s : System) (addr : Nat) (input : Controller.Input) :
    fileOpsIn addr (noteBoth codec p s (.controller input))
      = s.controller.touchedAt codec p input addr := by
  simp only [noteBoth, System.note, List.map_nil, List.nil_append, fileOpsIn, touchedAt,
    List.filterMap_map, Function.comp_def, Sum.getRight?_inr, Option.map_some]

/-- All that was ever asked of one worker up to the end of a frame has been carried out. -/
def Completed (p : Parameters) (record : List Entry) (frame : Int) : Prop :=
  ∃ addr before log, log.map Prod.fst = script p (before ++ [frame]) ∧
    Conveyed (recordOf addr (handledIn record)) (readIn addr record) (wroteIn addr record) log

theorem Completed.mono {record : List Entry} {frame : Int} (h : Completed p record frame)
    (new : List Entry) : Completed p (record ++ new) frame := by
  obtain ⟨addr, before, log, hlog, hconveyed⟩ := h
  refine ⟨addr, before, log, hlog, ?_⟩
  simp only [readIn, wroteIn, handledIn_append, recordOf_append, fileOpsIn_append,
    List.filterMap_append]
  exact hconveyed.mono

/-- What is on record about a worker of a system that is running. -/
theorem Audited.conveyed {s : System} {record : List Entry}
    (h : Audited codec p hops s (handledIn record))
    (hgoing : s.controller.pc.stopped = false) {w : RemoteWorker}
    (hw : w ∈ s.controller.remoteWorkers) (hfiles : fileOpsIn w.addr record = w.fileOps) :
    ∃ log rest, script p w.framesGiven = log.map Prod.fst ++ rest ∧
      Conveyed (recordOf w.addr (handledIn record)) (readIn w.addr record)
        (wroteIn w.addr record) log ∧
      wroteIn w.addr record = (log.flatMap fun x => x.1.writes x.2.response) ∧
      (w.state = .idle → rest = []) := by
  obtain ⟨part, hsuffix, hdelivered⟩ := (h.accounts hgoing).each w hw (h.inv.fits w hw)
  obtain ⟨done, pending, hlog⟩ := (h.logs.workers w hw).2
  obtain ⟨log, hjobs, hconveyed, hwrote⟩ := hdelivered.conveyed hlog
  refine ⟨log, (pending.map Asked.job).toList ++ remaining p w, ?_, ?_, ?_, ?_⟩
  · rw [hjobs, hlog.script, List.append_assoc]
  · rw [readIn, wroteIn, hfiles]
    exact ⟨hconveyed.handled.trans hsuffix.isInfix, hconveyed.done, hconveyed.read,
      hconveyed.wrote⟩
  · rw [wroteIn, hfiles]
    exact hwrote
  · intro hs
    obtain rfl := (logged_iff.mp hlog).pending_none (by rw [hs]; rfl)
    simp only [remaining, hs, Option.map_none, Option.toList_none, List.append_nil]

/-- What holds of a system, with its ledger, in every state it reaches. -/
structure Booked (codec : Codec) (p : Parameters) (hops : Nat → Nat) (jobs : List Int) (s : System)
    (record : List Entry) : Prop where
  audited : Audited codec p hops s (handledIn record)
  objects : Objects s.controller
  given : All (· ∈ jobs) (fun w => w.AtWork p jobs ∧ ∀ f ∈ w.framesGiven, f ∈ jobs) s.controller
  files : ∀ w ∈ s.controller.remoteWorkers, fileOpsIn w.addr record = w.fileOps
  fresh : ∀ addr, s.controller.nextAddr ≤ addr → fileOpsIn addr record = []
  permitted : ∀ addr op files, (addr, .inr (op, files)) ∈ record → op.Permitted p jobs files
  wrote : ∀ addr, ∀ file ∈ wroteIn addr record,
    Fetched p jobs (recordOf addr (handledIn record)) file.1 file.2
  finished : ∀ f ∈ s.controller.finished, Completed p record f

namespace Booked

variable {jobs : List Int} {s : System} {record : List Entry}

theorem work (h : Booked codec p hops jobs s record) :
    All (· ∈ jobs) (fun w => w.AtWork p jobs) s.controller :=
  ⟨h.given.frames, fun w hw => (h.given.workers w hw).1⟩

/-- What goes on record about files in a step of the controller is as the system answered. -/
theorem permitted_noteBoth (h : Booked codec p hops jobs s record) {input : Input} {addr : Nat}
    {op : FileOp} {files : Files}
    (hentry : (addr, .inr (op, files)) ∈ noteBoth codec p s input) : op.Permitted p jobs files := by
  rcases List.mem_append.mp hentry with hentry | hentry
  · obtain ⟨x, -, hx⟩ := List.mem_map.mp hentry
    exact absurd hx (by simp)
  · cases input with
    | link addr input => exact absurd hentry List.not_mem_nil
    | controller input =>
        obtain ⟨x, hx, heq⟩ := List.mem_map.mp hentry
        simp only [Prod.mk.injEq, Sum.inr.injEq] at heq
        obtain ⟨-, rfl, rfl⟩ := heq
        exact permitted_of_touched h.objects h.work hx

/-- Elsewhere nothing is done with the controller's files. -/
theorem link (h : Booked codec p hops jobs s record) {addr : Nat} {input : Link.Input}
    {l : Link} (haudited : Audited codec p hops { s with links := Function.update s.links addr l }
      (handledIn (record ++ noteBoth codec p s (.link addr input)))) :
    Booked codec p hops jobs { s with links := Function.update s.links addr l }
      (record ++ noteBoth codec p s (.link addr input)) := by
  have hfiles : ∀ a, fileOpsIn a (record ++ noteBoth codec p s (.link addr input))
      = fileOpsIn a record := by
    intro a
    rw [fileOpsIn_append, fileOpsIn_link, List.append_nil]
  refine ⟨haudited, h.objects, h.given, fun w hw => (hfiles _).trans (h.files w hw),
    fun a ha => (hfiles a).trans (h.fresh a ha), ?_, ?_, fun f hf => (h.finished f hf).mono _⟩
  · intro a op files hentry
    rcases List.mem_append.mp hentry with hold | hnew
    · exact h.permitted a op files hold
    · exact h.permitted_noteBoth hnew
  · intro a file hfile
    rw [wroteIn, hfiles] at hfile
    rw [handledIn_append, recordOf_append]
    exact (h.wrote a file hfile).mono

/-! A step of the controller adds to the record what it does with files. -/

variable {input : Controller.Input} {c : Controller}

theorem fileOpsIn_step (a : Nat) :
    fileOpsIn a (record ++ noteBoth codec p s (.controller input))
      = fileOpsIn a record ++ s.controller.touchedAt codec p input a := by
  rw [fileOpsIn_append, fileOpsIn_controller]

/-- What is on record about a worker that is there is what its trace shows. -/
theorem files_step (h : Booked codec p hops jobs s record)
    (hc : s.controller.step codec p input = some c) {w : RemoteWorker}
    (hw : w ∈ c.remoteWorkers) :
    fileOpsIn w.addr (record ++ noteBoth codec p s (.controller input)) = w.fileOps := by
  have hmove := move_of_step hc
  have hbefore : fileOpsIn w.addr record = s.controller.fileOpsAt w.addr := by
    rcases ((descends_of_move hmove).2 w hw).addr with ⟨w₀, hw₀, haddr⟩ | haddr
    · rw [← haddr, h.files w₀ hw₀, fileOpsAt_of_mem h.objects hw₀]
    · rw [h.fresh _ haddr, fileOpsAt_fresh h.objects haddr]
  rw [fileOpsIn_step, hbefore]
  exact (touchedAt_of_mem hc h.objects (h.objects.move hmove) h.work hw).1.symm

theorem fresh_step (h : Booked codec p hops jobs s record)
    (hc : s.controller.step codec p input = some c) {a : Nat} (ha : c.nextAddr ≤ a) :
    fileOpsIn a (record ++ noteBoth codec p s (.controller input)) = [] := by
  have hmove := move_of_step hc
  have hnobody : ∀ w ∈ c.remoteWorkers, w.addr ≠ a := by
    rintro w hw rfl
    exact absurd ((h.objects.move hmove).addrs_lt w hw) (Nat.not_lt.mpr ha)
  rw [fileOpsIn_step, h.fresh a ((descends_of_move hmove).1.trans ha),
    touchedAt_nobody hc hnobody, List.append_nil]

variable {links : Nat → Link}

/-- What is written has been copied out for a frame. -/
theorem wrote_step (h : Booked codec p hops jobs s record)
    (hc : s.controller.step codec p input = some c)
    (haudited : Audited codec p hops ⟨c, links⟩
      (handledIn (record ++ noteBoth codec p s (.controller input))))
    {a : Nat} {file : Bytes × Bytes}
    (hfile : file ∈ wroteIn a (record ++ noteBoth codec p s (.controller input))) :
    Fetched p jobs (recordOf a (handledIn (record ++ noteBoth codec p s (.controller input))))
      file.1 file.2 := by
  have hold : s.controller.touchedAt codec p input a = [] →
      Fetched p jobs (recordOf a (handledIn (record ++ noteBoth codec p s (.controller input))))
        file.1 file.2 := by
    intro hnothing
    rw [wroteIn, fileOpsIn_step, hnothing, List.append_nil] at hfile
    rw [handledIn_append, recordOf_append]
    exact (h.wrote a file hfile).mono
  by_cases hthere : ∃ w ∈ c.remoteWorkers, w.addr = a
  · obtain ⟨w, hw, rfl⟩ := hthere
    have hmove := move_of_step hc
    cases hgoing : c.pc.stopped with
    | true =>
        exact hold ((touchedAt_of_mem hc h.objects (h.objects.move hmove) h.work hw).2 hgoing)
    | false =>
        -- the worker's log says what each of its files was written for
        obtain ⟨log, rest, hscript, hconveyed, hwrote, -⟩ :=
          haudited.conveyed hgoing hw (h.files_step hc hw)
        rw [hwrote] at hfile
        exact hconveyed.fetched hscript ((h.given.move upheld_given hmove).workers w hw).2 hfile
  · exact hold (touchedAt_nobody hc fun w hw haddr => hthere ⟨w, hw, haddr⟩)

/-- A frame that is finished in this step has been completed. -/
theorem finished_step (h : Booked codec p hops jobs s record)
    (hc : s.controller.step codec p input = some c)
    (haudited : Audited codec p hops ⟨c, links⟩
      (handledIn (record ++ noteBoth codec p s (.controller input)))) :
    ∀ f ∈ c.finished, Completed p (record ++ noteBoth codec p s (.controller input)) f := by
  rcases finished_of_move (move_of_step hc) with hsame | ⟨w, hw, hfinished, hgoing, hnew⟩
  · rw [hsame]
    exact fun f hf => (h.finished f hf).mono _
  · rw [hnew]
    intro f hf
    rcases List.mem_cons.mp hf with rfl | hf
    · obtain ⟨log, rest, hscript, hconveyed, -, hrest⟩ :=
        haudited.conveyed hgoing hw (h.files_step hc hw)
      simp only [hasFinished, Bool.and_eq_true, beq_iff_eq] at hfinished
      obtain ⟨⟨⟨hidle, hstarted⟩, -⟩, -⟩ := hfinished
      obtain ⟨before, hframes⟩ := framesGiven_started hstarted
      rw [hframes, hrest (by simpa [isIdle] using hidle), List.append_nil] at hscript
      exact ⟨w.addr, before, log, hscript.symm, hconveyed⟩
    · exact (h.finished f hf).mono _

/-- **A step keeps the ledger.** -/
theorem step {t : System} {input : Input} (hsound : codec.Sound)
    (h : Booked codec p hops jobs s record) (hfits : Fits codec p s input)
    (hstep : System.step codec p s input = some t) :
    Booked codec p hops jobs t (record ++ noteBoth codec p s input) := by
  have haudited : Audited codec p hops t (handledIn (record ++ noteBoth codec p s input)) := by
    rw [handledIn_append, handledIn_noteBoth]
    exact h.audited.step hsound hfits hstep
  cases input with
  | link addr input =>
      rw [System.step] at hstep
      split at hstep
      case isFalse => exact absurd hstep (by simp)
      obtain ⟨l, -, rfl⟩ := Option.map_eq_some_iff.mp hstep
      exact h.link haudited
  | controller input =>
      rw [System.step] at hstep
      split at hstep
      case h_2 => exact absurd hstep (by simp)
      rename_i links c _ hc
      rw [Option.some.injEq] at hstep
      subst hstep
      have hmove := move_of_step hc
      refine ⟨haudited, h.objects.move hmove, h.given.move upheld_given hmove,
        fun w hw => h.files_step hc hw, fun a ha => h.fresh_step hc ha, ?_,
        fun a file hfile => h.wrote_step hc haudited hfile, h.finished_step hc haudited⟩
      intro a op files hentry
      rcases List.mem_append.mp hentry with hold | hnew
      · exact h.permitted a op files hold
      · exact h.permitted_noteBoth hnew

end Booked

theorem reach_booked (hsound : codec.Sound) {sockFd : Int} {fuel : Nat} {jobs : List Int}
    (hget : p.frames.getAll fuel = .ok jobs) (hnonneg : ∀ f ∈ jobs, 0 ≤ f) {s : System}
    {record : List Entry}
    (h : (ledger codec p sockFd fuel hops).Reach (Machine.Onto (Fits codec p)) (s, record)) :
    Booked codec p hops jobs s record := by
  refine Machine.Reach.recorded (P := Booked codec p hops jobs) ?_
    (fun s record input t hs hfits hstep => hs.step hsound hfits hstep) h
  have haudited : Audited codec p hops (machine codec p sockFd fuel hops).init [] :=
    reach_audited hsound hget hnonneg .init
  have hstart : (Controller.machine codec p sockFd fuel).Reach Machine.Any
      (Controller.start p sockFd fuel) := .init
  have hgiven : All (· ∈ jobs) (fun w => w.AtWork p jobs ∧ ∀ f ∈ w.framesGiven, f ∈ jobs)
      (Controller.start p sockFd fuel) := by
    refine All.start ?_
    intro jobs' hget' f hf
    rw [hget, Outcome.ok.injEq] at hget'
    exact hget' ▸ hf
  have hnone : ∀ w, w ∉ (Controller.start p sockFd fuel).remoteWorkers := by
    have hworkers : (Controller.start p sockFd fuel).remoteWorkers = [] :=
      start_of (fun c => c.remoteWorkers = []) fun _ hworkers _ _ _ _ => hworkers
    rw [hworkers]
    exact fun w => List.not_mem_nil
  have hfinished : (Controller.start p sockFd fuel).finished = [] :=
    start_of (fun c => c.finished = []) fun _ _ hfinished _ _ _ => hfinished
  refine ⟨haudited, reach_objects hstart, hgiven, fun w hw => absurd hw (hnone w),
    fun _ _ => rfl, fun _ _ _ hentry => absurd hentry List.not_mem_nil,
    fun _ _ hfile => absurd hfile List.not_mem_nil, ?_⟩
  intro f hf
  rw [show (machine codec p sockFd fuel hops).init.controller.finished = [] from hfinished] at hf
  exact absurd hf List.not_mem_nil

end System

/--
**Every file arrives, and no other.**  In every run of the controller and its workers, over
a range without negative numbers: each call of `read_file` and `write_file` on the
controller's machine is for a file of the command line, and returned what the file
delivered, or left in the file what arrived of the content.  Whatever was handed to
`write_file` is what a worker has read from the file that was asked for, for a frame of the
range, after it had run the program for that frame with success.  And when the controller
returns 0, there is for each frame a worker that has carried out all of its jobs up to the
end of that frame: what `read_file` returned here for each copy in is what the worker was
sent, and what the worker sent back for each copy out is what `write_file` was given, file by
file and in order.
-/
theorem every_file_arrives (codec : Codec) (hsound : codec.Sound) (p : Parameters)
    (sockFd : Int) (fuel : Nat) (hops : Nat → Nat) (jobs : List Int)
    (hget : p.frames.getAll fuel = .ok jobs) (hnonneg : ∀ f ∈ jobs, 0 ≤ f)
    (s : System) (record : List System.Entry)
    (h : (System.ledger codec p sockFd fuel hops).Reach (Machine.Onto (System.Fits codec p))
      (s, record)) :
    (∀ addr op files, (addr, .inr (op, files)) ∈ record → op.Permitted p jobs files) ∧
    (∀ addr name content, (name, content) ∈ System.wroteIn addr record →
      Fetched p jobs (System.recordOf addr (System.handledIn record)) name content) ∧
    (s.controller.pc = .returned 0 → ∀ f ∈ jobs, System.Completed p record f) := by
  have hbooked := System.reach_booked hsound hget hnonneg h
  have hcontroller := System.reach_controller h.forget
  refine ⟨hbooked.permitted, fun addr name content hfile => hbooked.wrote addr _ hfile, ?_⟩
  intro hret f hf
  exact hbooked.finished f (Controller.all_finished hget hnonneg hcontroller hret f hf)

/-! One frame and one worker, with a file that goes in and one that comes out. -/

namespace System

open RemoteWorker Controller

def oneScene : Parameters :=
  { oneFrame with
    inCopies := [.make (bytes "scene%d") (bytes "scene%d")]
    outCopies := [.make (bytes "image%d") (bytes "out/%d")] }

/-- The files on this side, -/
def here : Files := ⟨fun _ => some (bytes "triangles"), fun _ => some 6⟩

/-- and the other side. -/
def there : WorkerEnv :=
  { Pair.bareEnv with files := ⟨fun _ => some (bytes "pixels"), fun _ => some 9⟩ }

/-- A request goes out and is dealt with, and the response comes back. -/
def errand (request : Request) (assigned : List Controller.Input) : List Input :=
  let response := drpCodec.serializeResponse (Worker.handle there request)
  turn { pollout := true }
      [.tau, .send (.ok (frame (drpCodec.serializeRequest request)).length), .tau] [] ++
    [.link 0 .receive, .link 0 (.handle there), .link 0 .send] ++
    turn { pollin := true } [.recv (.ok ((frame response).take 4)) here, .tau, .tau] [] ++
    turn { pollin := true } [.recv (.ok response) here, .tau, .tau] assigned

def untilArrived : List Input :=
  arrival.map .controller ++ errand welcomeRequest [.assign here] ++
    errand (copyInRequest (bytes "scene1") (bytes "triangles")) [] ++
    errand (executeRequest oneScene 1) [] ++ errand (copyOutRequest (bytes "image1")) [] ++
    [.controller .tau]

/-- The system when the controller has returned, and the ledger. -/
def arrived : System × List Entry :=
  ((ledger drpCodec oneScene 3 5 fun _ => 0).exec (Machine.Onto (Fits drpCodec oneScene))
    (⟨Controller.start oneScene 3 5, fun _ => Link.make 0⟩, []) untilArrived).getD
    (⟨Controller.start oneScene 3 5, fun _ => Link.make 0⟩, [])

theorem reach_arrived :
    (ledger drpCodec oneScene 3 5 fun _ => 0).Reach (Machine.Onto (Fits drpCodec oneScene))
      arrived :=
  Machine.Run.of_replay (by decide +kernel)

end System

theorem every_file_arrives_oneScene :
    (∀ addr op files, (addr, .inr (op, files)) ∈ System.arrived.2 →
      op.Permitted System.oneScene [1] files) ∧
    Fetched System.oneScene [1] (System.recordOf 0 (System.handledIn System.arrived.2))
      (bytes "out/1") (bytes "pixels") ∧ System.Completed System.oneScene System.arrived.2 1 := by
  obtain ⟨hpermitted, hwrote, hcompleted⟩ := every_file_arrives drpCodec drpCodec_sound
    System.oneScene 3 5 (fun _ => 0) [1] (by decide +kernel) (by decide)
    System.arrived.1 System.arrived.2 System.reach_arrived
  exact ⟨hpermitted, hwrote 0 _ _ (by decide +kernel), hcompleted (by decide +kernel) 1 (by decide)⟩

end Distray
