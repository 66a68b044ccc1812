/-
From the command line to the work.

What somebody types is a list of words.  `parse_arguments` makes options of it, `get_all`
makes frames of one of the words, and the controller and the workers do the rest.  `work`
leaves all of that out: it reads the jobs off the words, and `CalledFor` the files of the
machine that the words were typed on.  When the program returns 0, these are the jobs that
the workers have done and the files that were read and written for them.

A copy has a name here and a name there.  `--in` has the one here first and `--out` last,
and each of them may have a parameter; if one does, the copy is made for each frame, with
the number filled in on both sides.  A copy out without one is read by the parser and then
never made, so no file here is written for it.
-/
import Distray.Proofs.Grammar
import Distray.Proofs.Enumeration
import Distray.Proofs.Arrival
import Distray.Proofs.Requests

namespace Distray

open Progression

/-! ### The jobs

The words of a setting are enough to say what jobs it stands for, and which files it is
about on this side; that the options the parser makes of it stand for the same is what has
to be shown.
-/

namespace Options

namespace Setting

/-- Whether a copy is made for each frame. -/
def perFrame (source destination : Argument) : Bool :=
  stringHasParameter source.val || stringHasParameter destination.val

/-- A file that goes in once. -/
def plainJob : Setting .controller → Option Job
  | .copyIn source destination _ =>
      if perFrame source destination then none
      else some (.copyIn source.val destination.val)
  | _ => none

/-- A file that goes in before the program is run. -/
def jobBefore (frame : Int) : Setting .controller → Option Job
  | .copyIn source destination _ =>
      if perFrame source destination then
        some (.copyIn (substituteParameter source.val frame)
          (substituteParameter destination.val frame))
      else none
  | _ => none

/-- One that comes out after it has been run. -/
def jobAfter (frame : Int) : Setting .controller → Option Job
  | .copyOut source destination _ =>
      if perFrame source destination then
        some (.copyOut (substituteParameter source.val frame)
          (substituteParameter destination.val frame))
      else none
  | _ => none

/-- The names here of what goes in. -/
def namesRead (frames : List Int) : Setting .controller → List Bytes
  | .copyIn source destination _ =>
      if perFrame source destination then frames.map (substituteParameter source.val)
      else [source.val]
  | _ => []

/-- The names here of what comes out. -/
def namesWritten (frames : List Int) : Setting .controller → List Bytes
  | .copyOut source destination _ =>
      if perFrame source destination then frames.map (substituteParameter destination.val)
      else []
  | _ => []

end Setting

/-- What the words ask for, for one frame. -/
def frameWork (settings : List (Setting .controller)) (executable : Argument)
    (parameters : List Argument) (frame : Int) : List Job :=
  settings.filterMap (Setting.jobBefore frame) ++
    .execute executable.val
      (parameters.map fun argument => substituteParameter argument.val frame) ::
    settings.filterMap (Setting.jobAfter frame)

/-- What they ask a worker for that is given these frames. -/
def work (settings : List (Setting .controller)) (executable : Argument)
    (parameters : List Argument) (frames : List Int) : List Job :=
  .welcome :: settings.filterMap Setting.plainJob ++
    frames.flatMap (frameWork settings executable parameters)

/--
A call of `read_file` or `write_file` that the words ask for, and that came to what the
operating system answered.
-/
def CalledFor (settings : List (Setting .controller)) (frames : List Int) (files : Files) :
    FileOp → Prop
  | .read name content =>
      name ∈ settings.flatMap (Setting.namesRead frames) ∧ readFile files name = some content
  | .wrote name content stored =>
      name ∈ settings.flatMap (Setting.namesWritten frames) ∧ files.Stores name content stored

/-- A job for each copy, read off the settings. -/
theorem jobsOf_settings {copy : Setting .controller → Option FileCopy} {wanted : FileCopy → Bool}
    {job : FileCopy → Job} {jobOf : Setting .controller → Option Job}
    (h : ∀ setting, ((copy setting).filter wanted).map job = jobOf setting)
    (settings : List (Setting .controller)) :
    jobsOf wanted job (settings.filterMap copy) = settings.filterMap jobOf := by
  rw [jobsOf, List.filter_filterMap, List.map_filterMap]
  exact congrArg (settings.filterMap ·) (funext h)

theorem map_filter_some {wanted : FileCopy → Bool} {job : FileCopy → Job} (c : FileCopy) :
    ((some c).filter wanted).map job = if wanted c then some (job c) else none := by
  by_cases hwanted : wanted c = true
  · simp [Option.filter, hwanted]
  · simp [Option.filter, hwanted]

theorem hasParameter_make (source destination : Argument) :
    (FileCopy.make source.val destination.val).hasParameter
      = Setting.perFrame source destination :=
  FileCopy.hasParameter_eq _

theorem plainIns_settings (settings : List (Setting .controller)) :
    plainIns (settings.filterMap Setting.inCopy) = settings.filterMap Setting.plainJob := by
  refine jobsOf_settings (fun setting => ?_) settings
  cases setting with
  | copyIn source destination hlocal =>
      rw [Setting.inCopy, map_filter_some, hasParameter_make, Setting.plainJob]
      cases Setting.perFrame source destination <;> rfl
  | _ => rfl

theorem frameIns_settings (frame : Int) (settings : List (Setting .controller)) :
    frameIns frame (settings.filterMap Setting.inCopy)
      = settings.filterMap (Setting.jobBefore frame) := by
  refine jobsOf_settings (fun setting => ?_) settings
  cases setting with
  | copyIn source destination hlocal =>
      rw [Setting.inCopy, map_filter_some, hasParameter_make]
      rfl
  | _ => rfl

theorem frameOuts_settings (frame : Int) (settings : List (Setting .controller)) :
    frameOuts frame (settings.filterMap Setting.outCopy)
      = settings.filterMap (Setting.jobAfter frame) := by
  refine jobsOf_settings (fun setting => ?_) settings
  cases setting with
  | copyOut source destination hlocal =>
      rw [Setting.outCopy, map_filter_some, hasParameter_make]
      rfl
  | _ => rfl

/-- **The script of the options is the work that the words ask for.** -/
theorem script_options (settings : List (Setting .controller)) (spec : Argument)
    (frames : Frames) (executable : Argument) (parameters : List Argument)
    (hword : ¬ Dashed spec) (hspec : Frames.parse spec.val = .ok frames)
    (hlocal : isPathnameLocal executable.val = true) (given : List Int) :
    script (CommandLine.controller settings spec frames executable parameters hword hspec
      hlocal).options.toParameters given = work settings executable parameters given := by
  have hin : (CommandLine.controller settings spec frames executable parameters hword hspec
      hlocal).options.inCopies = settings.filterMap Setting.inCopy := List.nil_append _
  have hout : (CommandLine.controller settings spec frames executable parameters hword hspec
      hlocal).options.outCopies = settings.filterMap Setting.outCopy := List.nil_append _
  have hframe : ∀ frame, frameScript (CommandLine.controller settings spec frames executable
      parameters hword hspec hlocal).options.toParameters frame
        = frameWork settings executable parameters frame := by
    intro frame
    rw [frameScript, hin, hout, frameIns_settings, frameOuts_settings, frameWork, executeJob]
    simp [CommandLine.options]
  rw [script, hin, plainIns_settings, work, funext hframe]

/-- **The sources of the options are the names here that the words have read.** -/
theorem mem_namesRead {settings : List (Setting .controller)} {frames : List Int} {name : Bytes}
    (h : name ∈ namesOf FileCopy.source (settings.filterMap Setting.inCopy) frames) :
    name ∈ settings.flatMap (Setting.namesRead frames) := by
  obtain ⟨c, hc, hname⟩ := List.mem_flatMap.mp h
  obtain ⟨setting, hsetting, hcopy⟩ := List.mem_filterMap.mp hc
  refine List.mem_flatMap.mpr ⟨setting, hsetting, ?_⟩
  cases setting with
  | copyIn source destination hlocal =>
      rw [Setting.inCopy, Option.some.injEq] at hcopy
      subst hcopy
      rw [hasParameter_make] at hname
      exact hname
  | proxy => exact absurd hcopy (by simp)
  | listen => exact absurd hcopy (by simp)
  | copyOut => exact absurd hcopy (by simp)

/-- What was copied out for a frame has one of the names here that the words have written. -/
theorem mem_namesWritten {settings : List (Setting .controller)} {frames : List Int}
    {p : Parameters} {history : List Handled} {name content : Bytes}
    (hout : p.outCopies = settings.filterMap Setting.outCopy)
    (h : Fetched p frames history name content) :
    name ∈ settings.flatMap (Setting.namesWritten frames) := by
  obtain ⟨frame, hframe, c, hc, hparameter, rfl, -⟩ := h
  rw [hout] at hc
  obtain ⟨setting, hsetting, hcopy⟩ := List.mem_filterMap.mp hc
  refine List.mem_flatMap.mpr ⟨setting, hsetting, ?_⟩
  cases setting with
  | copyOut source destination hlocal =>
      rw [Setting.outCopy, Option.some.injEq] at hcopy
      subst hcopy
      rw [hasParameter_make] at hparameter
      rw [Setting.namesWritten, if_pos hparameter]
      exact List.mem_map_of_mem hframe
  | proxy => exact absurd hcopy (by simp)
  | listen => exact absurd hcopy (by simp)
  | copyIn => exact absurd hcopy (by simp)

theorem line_of_parseArguments {program : Argument} {args : List Argument} {o : Options}
    (h : parseArguments (program :: args) = .ok o) :
    ∃ line : CommandLine, line.words = args ∧ line.options = o := by
  obtain ⟨_, name, args', command, o₁, rest, hargv, hname, hreads, hrest⟩ :=
    reads_of_parseArguments h
  obtain ⟨rfl, rfl⟩ := List.cons.inj hargv
  obtain ⟨settings, rfl, rfl, hstop⟩ := settings_of_reads hreads rfl
  exact line_of_parseRest hname settings hstop hrest

end Options

/-! ### The run -/

theorem Controller.getAll_of_returned {codec : Codec} {p : Parameters} {sockFd : Int} {fuel : Nat}
    {s : Controller} (h : (machine codec p sockFd fuel).Reach Machine.Any s)
    (hret : s.pc = .returned 0) : ∃ jobs, p.frames.getAll fuel = .ok jobs := by
  have hstarted : (∃ jobs, p.frames.getAll fuel = .ok jobs) ∨ s.pc.stopped = true := by
    refine Machine.Reach.invariant
      (P := fun s => (∃ jobs, p.frames.getAll fuel = .ok jobs) ∨ s.pc.stopped = true) ?_ ?_ h
    · exact start_of (fun s => (∃ jobs, p.frames.getAll fuel = .ok jobs) ∨ s.pc.stopped = true)
        fun s _ _ _ _ hpc => hpc.imp (fun h => ⟨s.frames, h.1⟩) And.right
    · intro s input t hs _ hstep
      refine Or.inl (hs.resolve_right fun hstopped => ?_)
      exact absurd ((not_stopped_of_step hstep).symm.trans hstopped) (by simp)
  refine hstarted.resolve_right fun hstopped => ?_
  rw [hret] at hstopped
  exact absurd hstopped (by simp [Pc.stopped])

/-- A call of `write_file` that is on record has handed it what is on record. -/
theorem System.mem_wroteIn {addr : Nat} {name content : Bytes} {stored : Option Bytes}
    {files : Files} {record : List Entry}
    (h : (addr, .inr (.wrote name content stored, files)) ∈ record) :
    (name, content) ∈ wroteIn addr record := by
  refine List.mem_filterMap.mpr ⟨.wrote name content stored, ?_, rfl⟩
  exact List.mem_filterMap.mpr ⟨_, h, by simp⟩

/--
**What the command line asks for is what has been done.**  If the program was started as a
controller and returns 0, then the command line is a list of settings, a range, a program
and its parameters.  Only files of this machine that the settings name have been read or
written; and for each number of the range one worker has been welcomed and has done, in
order and with nothing in between, what the settings ask for at the beginning, what they
ask for with some frames, and with this one at last, and has reported each job as done.
What went in to it is what was read here, under the names here, and what came out of it is
what was handed to `write_file`, file by file.  No number of the range may be negative:
such a number is not taken for a frame.
-/
theorem command_line_is_carried_out (codec : Codec) (hsound : codec.Sound)
    (program : Argument) (args : List Argument) (o : Options)
    (hparse : Options.parseArguments (program :: args) = .ok o)
    (hcommand : o.command = .controller)
    (hnonneg : ∀ k : Nat, ¬ Past o.frames.step o.frames.last (o.frames.first + k * o.frames.step) →
      0 ≤ o.frames.first + k * o.frames.step)
    (sockFd : Int) (fuel : Nat) (hops : Nat → Nat) (s : System) (record : List System.Entry)
    (h : (System.ledger codec o.toParameters sockFd fuel hops).Reach
      (Machine.Onto (System.Fits codec o.toParameters)) (s, record))
    (hret : s.controller.pc = .returned 0) :
    ∃ (settings : List (Options.Setting .controller)) (spec executable : Argument)
      (parameters : List Argument) (jobs : List Int),
      args = Options.word "controller" rfl ::
        (settings.flatMap Options.Setting.words ++ spec :: executable :: parameters) ∧
      Frames.parse spec.val = .ok o.frames ∧ o.frames.getAll fuel = .ok jobs ∧
      (∀ addr op files, (addr, .inr (op, files)) ∈ record →
        Options.CalledFor settings jobs files op) ∧
      ∀ k : Nat, ¬ Past o.frames.step o.frames.last (o.frames.first + k * o.frames.step) →
        ∃ (addr : Nat) (before : List Int) (log : List (Job × Handled)),
          log.map Prod.fst = Options.work settings executable parameters
            (before ++ [o.frames.first + k * o.frames.step]) ∧
          Conveyed (System.recordOf addr (System.handledIn record)) (System.readIn addr record)
            (System.wroteIn addr record) log := by
  have hcontroller := System.reach_controller h.forget
  obtain ⟨jobs, hget⟩ := Controller.getAll_of_returned hcontroller hret
  obtain ⟨-, hmem⟩ := Frames.mem_of_getAll hget
  have hjobs : ∀ f ∈ jobs, 0 ≤ f := by
    intro f hf
    obtain ⟨k, rfl, hshort⟩ := (hmem f).mp hf
    rw [term, nsmul_eq_mul] at hshort ⊢
    exact hnonneg k hshort
  have hbooked := System.reach_booked hsound hget hjobs h
  obtain ⟨line, rfl, rfl⟩ := Options.line_of_parseArguments hparse
  cases line with
  | worker => exact absurd hcommand (by simp [Options.CommandLine.options])
  | proxy settings =>
      exact absurd hcommand (by simp [Options.CommandLine.options, Options.withSettings])
  | unittest => exact absurd hcommand (by simp [Options.CommandLine.options])
  | controller settings spec frames executable parameters hword hspec hlocal =>
      refine ⟨settings, spec, executable, parameters, jobs, rfl, hspec, hget, ?_, ?_⟩
      · intro addr op files hentry
        have hpermitted := hbooked.permitted addr op files hentry
        cases op with
        | read name content =>
            obtain ⟨hname, hread⟩ := hpermitted
            exact ⟨Options.mem_namesRead hname, hread⟩
        | wrote name content stored =>
            obtain ⟨-, -, hstores⟩ := hpermitted
            have hfetched := hbooked.wrote addr _ (System.mem_wroteIn hentry)
            exact ⟨Options.mem_namesWritten rfl hfetched, hstores⟩
      · intro k hshort
        have hjob := (hmem _).mpr ⟨k, by rw [term, nsmul_eq_mul], hshort⟩
        obtain ⟨addr, before, log, hlog, hconveyed⟩ := hbooked.finished _
          (Controller.all_finished hget hjobs hcontroller hret _ hjob)
        rw [Options.script_options] at hlog
        exact ⟨addr, before, log, hlog, hconveyed⟩

/-! One frame and one worker, with a file that goes in and one that comes out. -/

namespace System

open Options

/-- `--in scene%d scene%d --out image%d out/%d` -/
def oneSceneSettings : List (Setting .controller) :=
  [.copyIn (word "scene%d" rfl) (word "scene%d" rfl) rfl,
    .copyOut (word "image%d" rfl) (word "out/%d" rfl) rfl]

/-- `distray controller 1 render`, with these settings. -/
def oneSceneLine : List Argument :=
  oneFrameLine.take 2 ++ oneSceneSettings.flatMap Setting.words ++ oneFrameLine.drop 2

/-- What is accepted of the line. -/
def oneSceneOptions : Options :=
  { Options.make with toParameters := oneScene, command := .controller }

end System

theorem command_line_is_carried_out_oneScene :
    ∃ (settings : List (Options.Setting .controller)) (spec executable : Argument)
      (parameters : List Argument) (jobs : List Int),
      System.oneSceneLine.tail = Options.word "controller" rfl ::
        (settings.flatMap Options.Setting.words ++ spec :: executable :: parameters) ∧
      Frames.parse spec.val = .ok ⟨1, 1, 1⟩ ∧ Frames.getAll ⟨1, 1, 1⟩ 5 = .ok jobs ∧
      (∀ addr op files, (addr, .inr (op, files)) ∈ System.arrived.2 →
        Options.CalledFor settings jobs files op) ∧
      ∀ k : Nat, ¬ Past (1 : Int) 1 (1 + k * 1) →
        ∃ (addr : Nat) (before : List Int) (log : List (Job × Handled)),
          log.map Prod.fst = Options.work settings executable parameters
            (before ++ [(1 : Int) + k * 1]) ∧
          Conveyed (System.recordOf addr (System.handledIn System.arrived.2))
            (System.readIn addr System.arrived.2) (System.wroteIn addr System.arrived.2) log := by
  have hnonneg : ∀ k : Nat, ¬ Past (1 : Int) 1 (1 + k * 1) → (0 : Int) ≤ 1 + k * 1 := by
    intro k _
    omega
  exact command_line_is_carried_out drpCodec drpCodec_sound (System.argument "distray" (by decide))
    System.oneSceneLine.tail System.oneSceneOptions (by decide) rfl hnonneg 3 5 (fun _ => 0)
    System.arrived.1 System.arrived.2 System.reach_arrived (by decide +kernel)

end Distray
