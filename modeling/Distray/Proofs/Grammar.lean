/-
The grammar of the command line.

A `CommandLine` is what can be asked for: a command, the settings it has flags for, in any
order and as often as one likes, and what it takes after them.  `words` writes it down and
`options` says what it stands for, and `parse_arguments` accepts exactly what can be
written down, for what it stands for.  A flag's own arguments may look like flags; what
ends the settings is a word that does not.

Being accepted and being refused are so described at once.  That a line is refused means that
there is no way to write it down, whatever the message says is wrong with it.
-/
import Distray.Proofs.CommandLine
import Mathlib.Data.List.Basic

namespace Distray

namespace Options

/-! ### The language

A setting carries its own well-formedness: which command it belongs to is its index, and
that its name is local is a field.  So a list of settings of a command is a list of flags
that the command takes, and nothing that is written down can be refused.
-/

/-- Whether an argument is taken for a flag. -/
def Dashed (arg : Argument) : Prop := arg.val[0]? = some '-'.toUInt8

/-- A word of the language. -/
def word (s : String) (h : (bytes s).all (· ≠ 0) = true) : Argument :=
  ⟨bytes s, fun hmem => absurd (List.all_eq_true.mp h 0 hmem) (by simp)⟩

/-- One flag with its arguments, of those that a command has. -/
inductive Setting : Command → Type
  | proxy (endpoint : Argument) : Setting .controller
  | listen (endpoint : Argument) : Setting .controller
  | copyIn (source destination : Argument) (hlocal : isPathnameLocal destination.val = true) :
      Setting .controller
  | copyOut (source destination : Argument) (hlocal : isPathnameLocal source.val = true) :
      Setting .controller
  | workerListen (endpoint : Argument) : Setting .proxy
  | controllerListen (endpoint : Argument) : Setting .proxy

namespace Setting

variable {command : Command}

/-- The flag. -/
def flag : Setting command → Argument
  | .proxy _ => word "--proxy" rfl
  | .listen _ => word "--listen" rfl
  | .copyIn _ _ _ => word "--in" rfl
  | .copyOut _ _ _ => word "--out" rfl
  | .workerListen _ => word "--worker-listen" rfl
  | .controllerListen _ => word "--controller-listen" rfl

/-- The flag's own arguments. -/
def values : Setting command → List Argument
  | .proxy endpoint => [endpoint]
  | .listen endpoint => [endpoint]
  | .copyIn source destination _ => [source, destination]
  | .copyOut source destination _ => [source, destination]
  | .workerListen endpoint => [endpoint]
  | .controllerListen endpoint => [endpoint]

def words (setting : Setting command) : List Argument := setting.flag :: setting.values

/-! What each field of the options is told. -/

@[simp] def proxyEndpoint : Setting command → Option Endpoint
  | .proxy endpoint => some ⟨endpoint.val⟩
  | _ => none

@[simp] def endpoint : Setting command → Option Endpoint
  | .listen endpoint => some ⟨endpoint.val⟩
  | _ => none

@[simp] def inCopy : Setting command → Option FileCopy
  | .copyIn source destination _ => some (.make source.val destination.val)
  | _ => none

@[simp] def outCopy : Setting command → Option FileCopy
  | .copyOut source destination _ => some (.make source.val destination.val)
  | _ => none

@[simp] def workerEndpoint : Setting command → Option Endpoint
  | .workerListen endpoint => some ⟨endpoint.val⟩
  | _ => none

@[simp] def controllerEndpoint : Setting command → Option Endpoint
  | .controllerListen endpoint => some ⟨endpoint.val⟩
  | _ => none

end Setting

/-- Settings that are collected are in order, and where there is room for one it is the last. -/
def withSettings {command : Command} (o : Options) (settings : List (Setting command)) : Options :=
  { o with
    proxyEndpoints := o.proxyEndpoints ++ settings.filterMap Setting.proxyEndpoint
    inCopies := o.inCopies ++ settings.filterMap Setting.inCopy
    outCopies := o.outCopies ++ settings.filterMap Setting.outCopy
    endpoint := (settings.filterMap Setting.endpoint).getLastD o.endpoint
    workerEndpoint := (settings.filterMap Setting.workerEndpoint).getLastD o.workerEndpoint
    controllerEndpoint :=
      (settings.filterMap Setting.controllerEndpoint).getLastD o.controllerEndpoint }

/-- Everything that can be asked for. -/
inductive CommandLine
  | worker (endpoint : Argument) (hword : ¬ Dashed endpoint)
  | proxy (settings : List (Setting .proxy))
  | controller (settings : List (Setting .controller)) (spec : Argument) (frames : Frames)
      (executable : Argument) (parameters : List Argument) (hword : ¬ Dashed spec)
      (hspec : Frames.parse spec.val = .ok frames)
      (hlocal : isPathnameLocal executable.val = true)
  | unittest

namespace CommandLine

/-- How it is written, after the name of the program. -/
def words : CommandLine → List Argument
  | .worker endpoint _ => [word "worker" rfl, endpoint]
  | .proxy settings => word "proxy" rfl :: settings.flatMap Setting.words
  | .controller settings spec _ executable parameters _ _ _ =>
      word "controller" rfl ::
        (settings.flatMap Setting.words ++ spec :: executable :: parameters)
  | .unittest => [word "unittest" rfl]

/-- What it stands for. -/
def options : CommandLine → Options
  | .worker endpoint _ => { make with command := .worker, endpoint := ⟨endpoint.val⟩ }
  | .proxy settings => { make with command := .proxy }.withSettings settings
  | .controller settings _ frames executable parameters _ _ _ =>
      { ({ make with command := .controller } : Options).withSettings settings with
        frames := frames
        executable := executable.val
        arguments := parameters.map Subtype.val }
  | .unittest => { make with command := .unittest }

end CommandLine

/-! ### One setting -/

section

variable {command : Command}

/-- What one setting changes. -/
def withSetting (o : Options) (setting : Setting command) : Options :=
  { o with
    proxyEndpoints := o.proxyEndpoints ++ setting.proxyEndpoint.toList
    inCopies := o.inCopies ++ setting.inCopy.toList
    outCopies := o.outCopies ++ setting.outCopy.toList
    endpoint := setting.endpoint.getD o.endpoint
    workerEndpoint := setting.workerEndpoint.getD o.workerEndpoint
    controllerEndpoint := setting.controllerEndpoint.getD o.controllerEndpoint }

theorem append_filterMap_cons {α β : Type} (f : α → Option β) (a : α) (l : List α)
    (bs : List β) : bs ++ (a :: l).filterMap f = bs ++ (f a).toList ++ l.filterMap f := by
  cases h : f a with
  | none => rw [List.filterMap_cons_none h, Option.toList_none, List.append_nil]
  | some b => rw [List.filterMap_cons_some h, Option.toList_some, List.append_cons]

theorem getLastD_filterMap_cons {α β : Type} (f : α → Option β) (a : α) (l : List α) (b : β) :
    ((a :: l).filterMap f).getLastD b = (l.filterMap f).getLastD ((f a).getD b) := by
  cases h : f a with
  | none => rw [List.filterMap_cons_none h, Option.getD_none]
  | some c => rw [List.filterMap_cons_some h, Option.getD_some, List.getLastD_cons]

theorem withSettings_nil (o : Options) : o.withSettings ([] : List (Setting command)) = o := by
  simp [withSettings]

theorem withSettings_cons (o : Options) (setting : Setting command)
    (settings : List (Setting command)) :
    o.withSettings (setting :: settings) = (o.withSetting setting).withSettings settings := by
  unfold withSettings withSetting
  simp only [append_filterMap_cons, getLastD_filterMap_cons]

theorem dashed_flag (setting : Setting command) : Dashed setting.flag := by
  cases setting <;> rfl

theorem flag_of_setting {o : Options} (hcommand : o.command = command)
    (setting : Setting command) (args : List Argument) :
    Flag o setting.flag.val (setting.values ++ args) (o.withSetting setting) args := by
  have htaken : ∀ {o' : Options}, Flag o setting.flag.val (setting.values ++ args) o' args →
      o.withSetting setting = o' →
        Flag o setting.flag.val (setting.values ++ args) (o.withSetting setting) args :=
    fun hflag heq => heq ▸ hflag
  cases setting with
  | proxy endpoint => exact htaken (.proxy endpoint args hcommand) (by simp [withSetting])
  | listen endpoint => exact htaken (.listen endpoint args hcommand) (by simp [withSetting])
  | copyIn source destination hlocal =>
      exact htaken (.copyIn source destination args hcommand hlocal) (by simp [withSetting])
  | copyOut source destination hlocal =>
      exact htaken (.copyOut source destination args hcommand hlocal) (by simp [withSetting])
  | workerListen endpoint =>
      exact htaken (.workerListen endpoint args hcommand) (by simp [withSetting])
  | controllerListen endpoint =>
      exact htaken (.controllerListen endpoint args hcommand) (by simp [withSetting])

/-- A flag that is accepted is a setting of the command. -/
theorem setting_of_flag {o o' : Options} {arg : Bytes} {args args' : List Argument}
    (hcommand : o.command = command) (h : Flag o arg args o' args') :
    ∃ setting : Setting command, arg = setting.flag.val ∧
      args = setting.values ++ args' ∧ o' = o.withSetting setting := by
  cases h with
  | proxy endpoint _ hthis =>
      obtain rfl := hcommand.symm.trans hthis
      exact ⟨.proxy endpoint, rfl, rfl, by simp [withSetting]⟩
  | copyIn source destination _ hthis hlocal =>
      obtain rfl := hcommand.symm.trans hthis
      exact ⟨.copyIn source destination hlocal, rfl, rfl, by simp [withSetting]⟩
  | copyOut source destination _ hthis hlocal =>
      obtain rfl := hcommand.symm.trans hthis
      exact ⟨.copyOut source destination hlocal, rfl, rfl, by simp [withSetting]⟩
  | listen endpoint _ hthis =>
      obtain rfl := hcommand.symm.trans hthis
      exact ⟨.listen endpoint, rfl, rfl, by simp [withSetting]⟩
  | workerListen endpoint _ hthis =>
      obtain rfl := hcommand.symm.trans hthis
      exact ⟨.workerListen endpoint, rfl, rfl, by simp [withSetting]⟩
  | controllerListen endpoint _ hthis =>
      obtain rfl := hcommand.symm.trans hthis
      exact ⟨.controllerListen endpoint, rfl, rfl, by simp [withSetting]⟩

/-! ### The settings

Where the settings end and the rest begins is decided by the first byte of the next word.
Settings begin with a dash, and what comes after them must not; then both ways of going from
words to settings and back agree.
-/

/-- What ends the settings: nothing more, or a word that is not a flag. -/
theorem nextIsFlag_cons (arg : Argument) (args : List Argument) :
    nextIsFlag (arg :: args) = true ↔ Dashed arg := by
  unfold nextIsFlag Dashed
  rw [decide_eq_true_iff]

theorem nextIsFlag_of_not_dashed {arg : Argument} (h : ¬ Dashed arg) (args : List Argument) :
    nextIsFlag (arg :: args) = false :=
  Bool.eq_false_iff.mpr fun hflag => h ((nextIsFlag_cons arg args).mp hflag)

theorem not_dashed_of_nextIsFlag {arg : Argument} {args : List Argument}
    (h : nextIsFlag (arg :: args) = false) : ¬ Dashed arg := by
  intro hdashed
  rw [(nextIsFlag_cons arg args).mpr hdashed] at h
  exact absurd h (by simp)

/-- Settings are read as they are written, up to a word that is not a flag. -/
theorem reads_words {rest : List Argument} (hrest : nextIsFlag rest = false)
    (settings : List (Setting command)) : ∀ o : Options, o.command = command →
      Reads o (settings.flatMap Setting.words ++ rest) (o.withSettings settings) rest := by
  induction settings with
  | nil =>
      intro o _
      rw [List.flatMap_nil, List.nil_append, withSettings_nil]
      exact .stop hrest
  | cons setting settings ih =>
      intro o hcommand
      rw [List.flatMap_cons, List.append_assoc, withSettings_cons]
      exact .next ((nextIsFlag_cons _ _).mpr (dashed_flag setting))
        (flag_of_setting hcommand setting _) (ih (o.withSetting setting) hcommand)

/-- What the loop over the flags takes is settings, and it stops where they do. -/
theorem settings_of_reads {o o' : Options} {args rest : List Argument}
    (h : Reads o args o' rest) (hcommand : o.command = command) :
    ∃ settings : List (Setting command), args = settings.flatMap Setting.words ++ rest ∧
      o' = o.withSettings settings ∧ nextIsFlag rest = false := by
  induction h with
  | stop hstop => exact ⟨[], rfl, (withSettings_nil _).symm, hstop⟩
  | next _ hflag _ ih =>
      obtain ⟨setting, harg, rfl, rfl⟩ := setting_of_flag hcommand hflag
      obtain ⟨settings, rfl, rfl, hstop⟩ := ih hcommand
      refine ⟨setting :: settings, ?_, (withSettings_cons _ _ _).symm, hstop⟩
      rw [List.flatMap_cons, List.append_assoc, Subtype.ext harg]
      rfl

end

theorem settings_worker (settings : List (Setting .worker)) : settings = [] := by
  cases settings with
  | nil => rfl
  | cons setting _ => nomatch setting

theorem settings_unittest (settings : List (Setting .unittest)) : settings = [] := by
  cases settings with
  | nil => rfl
  | cons setting _ => nomatch setting

/-! ### The whole line -/

theorem commandOf_eq_some {arg : Bytes} {command : Command} (h : commandOf arg = some command) :
    (arg = bytes "worker" ∧ command = .worker) ∨ (arg = bytes "proxy" ∧ command = .proxy) ∨
      (arg = bytes "controller" ∧ command = .controller) ∨
      (arg = bytes "unittest" ∧ command = .unittest) := by
  unfold commandOf at h
  by_cases hworker : arg = bytes "worker"
  · rw [if_pos hworker, Option.some.injEq] at h
    exact Or.inl ⟨hworker, h.symm⟩
  by_cases hproxy : arg = bytes "proxy"
  · rw [if_neg hworker, if_pos hproxy, Option.some.injEq] at h
    exact Or.inr (Or.inl ⟨hproxy, h.symm⟩)
  by_cases hcontroller : arg = bytes "controller"
  · rw [if_neg hworker, if_neg hproxy, if_pos hcontroller, Option.some.injEq] at h
    exact Or.inr (Or.inr (Or.inl ⟨hcontroller, h.symm⟩))
  by_cases hunittest : arg = bytes "unittest"
  · rw [if_neg hworker, if_neg hproxy, if_neg hcontroller, if_pos hunittest,
      Option.some.injEq] at h
    exact Or.inr (Or.inr (Or.inr ⟨hunittest, h.symm⟩))
  · rw [if_neg hworker, if_neg hproxy, if_neg hcontroller, if_neg hunittest] at h
    exact absurd h (by simp)

/-- The name of a command, its settings, and the rest. -/
theorem parseArguments_words {command : Command} (name : Argument)
    (hname : commandOf name.val = some command) (settings : List (Setting command))
    {rest : List Argument} (hrest : nextIsFlag rest = false) (program : Argument) :
    parseArguments (program :: name :: (settings.flatMap Setting.words ++ rest))
      = parseRest ({ make with command := command }.withSettings settings) rest := by
  have hhelp : ¬ (name.val = bytes "--help" ∨ name.val = bytes "-h" ∨ name.val = bytes "help") := by
    intro h
    have hnone : commandOf name.val = none := by
      rcases h with h | h | h <;> rw [h] <;> decide
    rw [hnone] at hname
    exact absurd hname (by simp)
  unfold parseArguments
  simp only [if_neg hhelp, hname]
  rw [parseFlags_of_reads (reads_words hrest settings _ rfl) _ (Nat.le_refl _)]
  rfl

theorem parseArguments_line (program : Argument) (line : CommandLine) :
    parseArguments (program :: line.words) = .ok line.options := by
  cases line with
  | worker endpoint hword =>
      have hread := parseArguments_words (word "worker" rfl) (by decide)
        ([] : List (Setting .worker)) (nextIsFlag_of_not_dashed hword []) program
      rw [withSettings_nil] at hread
      exact hread
  | proxy settings =>
      have hread := parseArguments_words (word "proxy" rfl) (by decide) settings
        (show nextIsFlag [] = false from rfl) program
      rw [List.append_nil] at hread
      exact hread
  | controller settings spec frames executable parameters hword hspec hlocal =>
      have hread := parseArguments_words (word "controller" rfl) (by decide) settings
        (nextIsFlag_of_not_dashed hword (executable :: parameters)) program
      rw [parseRest_controller rfl hspec hlocal] at hread
      exact hread
  | unittest =>
      have hread := parseArguments_words (word "unittest" rfl) (by decide)
        ([] : List (Setting .unittest)) (show nextIsFlag [] = false from rfl) program
      rw [withSettings_nil] at hread
      exact hread

/-- What a command takes after its settings. -/
theorem line_of_parseRest {command : Command} {name : Argument}
    (hname : commandOf name.val = some command) (settings : List (Setting command))
    {rest : List Argument} (hrest : nextIsFlag rest = false) {o : Options}
    (h : parseRest ({ make with command := command }.withSettings settings) rest = .ok o) :
    ∃ line : CommandLine, line.words = name :: (settings.flatMap Setting.words ++ rest) ∧
      line.options = o := by
  obtain ⟨text, hnul⟩ := name
  rcases commandOf_eq_some hname with ⟨rfl, rfl⟩ | ⟨rfl, rfl⟩ | ⟨rfl, rfl⟩ | ⟨rfl, rfl⟩
  · obtain rfl := settings_worker settings
    rw [withSettings_nil] at h
    obtain ⟨endpoint, rfl, rfl⟩ := parseRest_worker_ok rfl h
    exact ⟨.worker endpoint (not_dashed_of_nextIsFlag hrest), rfl, rfl⟩
  · obtain ⟨rfl, rfl⟩ := parseRest_nothing_ok (Or.inl rfl) h
    rw [List.append_nil]
    exact ⟨.proxy settings, rfl, rfl⟩
  · obtain ⟨spec, executable, parameters, frames, rfl, hspec, hlocal, rfl⟩ :=
      parseRest_controller_ok rfl h
    exact ⟨.controller settings spec frames executable parameters
      (not_dashed_of_nextIsFlag hrest) hspec hlocal, rfl, rfl⟩
  · obtain rfl := settings_unittest settings
    rw [withSettings_nil] at h
    obtain ⟨rfl, rfl⟩ := parseRest_nothing_ok (Or.inr rfl) h
    exact ⟨.unittest, rfl, rfl⟩

/--
**`parse_arguments` accepts exactly the lines that can be written down**, and what it makes
of one is what it stands for.
-/
theorem parseArguments_eq_ok_iff (program : Argument) (args : List Argument) (o : Options) :
    parseArguments (program :: args) = .ok o ↔
      ∃ line : CommandLine, line.words = args ∧ line.options = o := by
  constructor
  · intro h
    obtain ⟨_, name, args, command, o₁, rest, hargv, hname, hreads, hrest⟩ :=
      reads_of_parseArguments h
    obtain ⟨rfl, rfl⟩ := List.cons.inj hargv
    obtain ⟨settings, rfl, rfl, hstop⟩ := settings_of_reads hreads rfl
    exact line_of_parseRest hname settings hstop hrest
  · rintro ⟨line, rfl, rfl⟩
    exact parseArguments_line program line

end Options

end Distray
