/-
What the command line lets through.

`Flag` says what one flag can do, with a constructor for each of the six, and the loop is
an induction over it.  What matters to the workers is `Checked`: the name at the worker's
end of every copy, and the name of the program, passed `is_pathname_local` when they were
read.  `parse_arguments` picks the right one of source and destination for each flag.

The loop of the source ends where there are no arguments left or the next one does not look
like a flag.  `Reads` is the same without a loop: the arguments that were read, and the
options before and after them.
-/
import Distray.Arguments

namespace Distray

namespace Options

/-! ### What a flag can do

One turn of the loop, as a relation: which field it changes, and what has been checked by
then.  The six constructors are the six flags, and every fact about the loop is a case
analysis on them.
-/

/-- A flag that is accepted, with its own arguments, and what it sets. -/
inductive Flag (o : Options) : Bytes → List Argument → Options → List Argument → Prop
  | proxy (endpoint : Argument) (args : List Argument) (hcommand : o.command = .controller) :
      Flag o (bytes "--proxy") (endpoint :: args)
        { o with proxyEndpoints := o.proxyEndpoints ++ [⟨endpoint.val⟩] } args
  | copyIn (source destination : Argument) (args : List Argument)
      (hcommand : o.command = .controller) (hlocal : isPathnameLocal destination.val = true) :
      Flag o (bytes "--in") (source :: destination :: args)
        { o with inCopies := o.inCopies ++ [.make source.val destination.val] } args
  | copyOut (source destination : Argument) (args : List Argument)
      (hcommand : o.command = .controller) (hlocal : isPathnameLocal source.val = true) :
      Flag o (bytes "--out") (source :: destination :: args)
        { o with outCopies := o.outCopies ++ [.make source.val destination.val] } args
  | listen (endpoint : Argument) (args : List Argument) (hcommand : o.command = .controller) :
      Flag o (bytes "--listen") (endpoint :: args) { o with endpoint := ⟨endpoint.val⟩ } args
  | workerListen (endpoint : Argument) (args : List Argument) (hcommand : o.command = .proxy) :
      Flag o (bytes "--worker-listen") (endpoint :: args)
        { o with workerEndpoint := ⟨endpoint.val⟩ } args
  | controllerListen (endpoint : Argument) (args : List Argument)
      (hcommand : o.command = .proxy) :
      Flag o (bytes "--controller-listen") (endpoint :: args)
        { o with controllerEndpoint := ⟨endpoint.val⟩ } args

theorem endpointFlag_eq_ok {allowed : Bool} {notAllowed missing : String}
    {set : Endpoint → Options} {args args' : List Argument} {o' : Options}
    (h : endpointFlag allowed notAllowed missing set args = .ok (o', args')) :
    allowed = true ∧ ∃ endpoint, args = endpoint :: args' ∧ o' = set ⟨endpoint.val⟩ := by
  unfold endpointFlag at h
  split at h
  · rename_i hallowed
    split at h
    · rename_i endpoint rest
      simp only [Except.ok.injEq, Prod.mk.injEq] at h
      obtain ⟨rfl, rfl⟩ := h
      exact ⟨hallowed, endpoint, rfl, rfl⟩
    · exact absurd h (by simp [refuse])
  · exact absurd h (by simp [refuse])

theorem copyFlag_eq_ok {o o' : Options} {arg : Bytes} {remote : FileCopy → Bytes}
    {set : FileCopy → Options} {args args' : List Argument}
    (h : o.copyFlag arg remote set args = .ok (o', args')) :
    o.command = .controller ∧ ∃ source destination, args = source :: destination :: args' ∧
      isPathnameLocal (remote (.make source.val destination.val)) = true ∧
      o' = set (.make source.val destination.val) := by
  unfold copyFlag at h
  split at h
  · exact absurd h (by simp [refuse])
  · rename_i hcommand
    split at h
    · rename_i source destination rest
      simp only at h
      split at h
      · rename_i hlocal
        simp only [Except.ok.injEq, Prod.mk.injEq] at h
        obtain ⟨rfl, rfl⟩ := h
        exact ⟨by simpa using hcommand, source, destination, rfl, hlocal, rfl⟩
      · exact absurd h (by simp [refuse])
    · exact absurd h (by simp [refuse])

theorem endpointFlag_ok {allowed : Bool} (h : allowed = true) (notAllowed missing : String)
    (set : Endpoint → Options) (endpoint : Argument) (args : List Argument) :
    endpointFlag allowed notAllowed missing set (endpoint :: args)
      = .ok (set ⟨endpoint.val⟩, args) := if_pos h

theorem copyFlag_ok {o : Options} (h : o.command = .controller) (arg : Bytes)
    {remote : FileCopy → Bytes} (set : FileCopy → Options) {source destination : Argument}
    (hlocal : isPathnameLocal (remote (.make source.val destination.val)) = true)
    (args : List Argument) :
    o.copyFlag arg remote set (source :: destination :: args)
      = .ok (set (.make source.val destination.val), args) := by
  unfold copyFlag
  rw [if_neg (not_not.mpr h)]
  exact if_pos hlocal

/-- **A flag that is accepted is one of the six.** -/
theorem flag_of_parseFlag {o o' : Options} {arg : Bytes} {args args' : List Argument}
    (h : o.parseFlag arg args = .ok (o', args')) : Flag o arg args o' args' := by
  unfold parseFlag at h
  split at h
  case isTrue harg =>
    obtain ⟨hcommand, endpoint, rfl, rfl⟩ := endpointFlag_eq_ok h
    exact harg ▸ .proxy endpoint args' (by simpa using hcommand)
  split at h
  case isTrue harg =>
    obtain ⟨hcommand, source, destination, rfl, hlocal, rfl⟩ := copyFlag_eq_ok h
    exact harg ▸ .copyIn source destination args' hcommand hlocal
  split at h
  case isTrue harg =>
    obtain ⟨hcommand, source, destination, rfl, hlocal, rfl⟩ := copyFlag_eq_ok h
    exact harg ▸ .copyOut source destination args' hcommand hlocal
  split at h
  case isTrue harg =>
    obtain ⟨hcommand, endpoint, rfl, rfl⟩ := endpointFlag_eq_ok h
    exact harg ▸ .listen endpoint args' (by simpa using hcommand)
  split at h
  case isTrue harg =>
    obtain ⟨hcommand, endpoint, rfl, rfl⟩ := endpointFlag_eq_ok h
    exact harg ▸ .workerListen endpoint args' (by simpa using hcommand)
  split at h
  case isTrue harg =>
    obtain ⟨hcommand, endpoint, rfl, rfl⟩ := endpointFlag_eq_ok h
    exact harg ▸ .controllerListen endpoint args' (by simpa using hcommand)
  case isFalse => exact absurd h (by simp [refuse])

theorem parseFlag_of_flag {o o' : Options} {arg : Bytes} {args args' : List Argument}
    (h : Flag o arg args o' args') : o.parseFlag arg args = .ok (o', args') := by
  unfold parseFlag
  cases h with
  | proxy endpoint _ hcommand =>
      rw [if_pos rfl]
      exact endpointFlag_ok (decide_eq_true hcommand) _ _ _ _ _
  | copyIn source destination _ hcommand hlocal =>
      rw [if_neg (by decide), if_pos rfl]
      exact copyFlag_ok hcommand _ _ hlocal _
  | copyOut source destination _ hcommand hlocal =>
      rw [if_neg (by decide), if_neg (by decide), if_pos rfl]
      exact copyFlag_ok hcommand _ _ hlocal _
  | listen endpoint _ hcommand =>
      rw [if_neg (by decide), if_neg (by decide), if_neg (by decide), if_pos rfl]
      exact endpointFlag_ok (decide_eq_true hcommand) _ _ _ _ _
  | workerListen endpoint _ hcommand =>
      rw [if_neg (by decide), if_neg (by decide), if_neg (by decide), if_neg (by decide),
        if_pos rfl]
      exact endpointFlag_ok (decide_eq_true hcommand) _ _ _ _ _
  | controllerListen endpoint _ hcommand =>
      rw [if_neg (by decide), if_neg (by decide), if_neg (by decide), if_neg (by decide),
        if_neg (by decide), if_pos rfl]
      exact endpointFlag_ok (decide_eq_true hcommand) _ _ _ _ _

theorem Flag.length {o o' : Options} {arg : Bytes} {args args' : List Argument}
    (h : Flag o arg args o' args') : args'.length < args.length := by
  cases h <;> simp only [List.length_cons] <;> omega

/-! ### The loop over the flags -/

theorem parseFlags_fuel : ∀ (fuel fuel' : Nat) (o : Options) (args : List Argument),
    args.length ≤ fuel → args.length ≤ fuel' →
      parseFlags fuel o args = parseFlags fuel' o args := by
  intro fuel
  induction fuel with
  | zero =>
      intro fuel' o args h _
      rw [List.eq_nil_of_length_eq_zero (Nat.le_zero.mp h)]
      cases fuel' <;> rfl
  | succ fuel ih =>
      intro fuel' o args h h'
      cases args with
      | nil => cases fuel' <;> rfl
      | cons arg args =>
          rw [List.length_cons] at h h'
          obtain ⟨fuel', rfl⟩ := Nat.exists_eq_succ_of_ne_zero (by omega : fuel' ≠ 0)
          rw [parseFlags, parseFlags]
          split
          · cases hflag : o.parseFlag arg.val args with
            | error why => rfl
            | ok parsed =>
                obtain ⟨o', args'⟩ := parsed
                have hlen := (flag_of_parseFlag hflag).length
                show parseFlags fuel o' args' = parseFlags fuel' o' args'
                exact ih fuel' o' args' (by omega) (by omega)
          · rfl

/-- **The loop, as the source writes it.** -/
theorem parseFlags_eq (o : Options) (arg : Argument) (args : List Argument) :
    parseFlags (args.length + 1) o (arg :: args) =
      if nextIsFlag (arg :: args) then
        o.parseFlag arg.val args >>= fun parsed => parseFlags parsed.2.length parsed.1 parsed.2
      else .ok (o, arg :: args) := by
  rw [parseFlags]
  split
  · cases hflag : o.parseFlag arg.val args with
    | error why => rfl
    | ok parsed =>
        obtain ⟨o', args'⟩ := parsed
        have hlen := (flag_of_parseFlag hflag).length
        exact parseFlags_fuel _ _ o' args' (by omega) (Nat.le_refl _)
  · rfl

/-- A run of the loop: one flag after another, up to something else. -/
inductive Reads : Options → List Argument → Options → List Argument → Prop
  | stop {o : Options} {args : List Argument} (hstop : nextIsFlag args = false) :
      Reads o args o args
  | next {o o₁ o' : Options} {arg : Argument} {args args₁ rest : List Argument}
      (hnext : nextIsFlag (arg :: args) = true) (hflag : Flag o arg.val args o₁ args₁)
      (hrest : Reads o₁ args₁ o' rest) : Reads o (arg :: args) o' rest

theorem reads_of_parseFlags : ∀ (fuel : Nat) (o : Options) (args : List Argument) (o' : Options)
    (rest : List Argument), args.length ≤ fuel → parseFlags fuel o args = .ok (o', rest) →
      Reads o args o' rest := by
  intro fuel
  induction fuel with
  | zero =>
      intro o args o' rest hfuel h
      obtain rfl := List.eq_nil_of_length_eq_zero (Nat.le_zero.mp hfuel)
      simp only [parseFlags, Except.ok.injEq, Prod.mk.injEq] at h
      obtain ⟨rfl, rfl⟩ := h
      exact .stop rfl
  | succ fuel ih =>
      intro o args o' rest hfuel h
      cases args with
      | nil =>
          simp only [parseFlags, Except.ok.injEq, Prod.mk.injEq] at h
          obtain ⟨rfl, rfl⟩ := h
          exact .stop rfl
      | cons arg args =>
          rw [parseFlags] at h
          by_cases hnext : nextIsFlag (arg :: args) = true
          · rw [if_pos hnext] at h
            cases hread : o.parseFlag arg.val args with
            | error why => rw [hread] at h; exact absurd h (by simp [bind, Except.bind])
            | ok parsed =>
                obtain ⟨o₁, args₁⟩ := parsed
                rw [hread] at h
                have hflag := flag_of_parseFlag hread
                have hlen := hflag.length
                rw [List.length_cons] at hfuel
                exact .next hnext hflag (ih o₁ args₁ o' rest (by omega) h)
          · rw [if_neg hnext] at h
            simp only [Except.ok.injEq, Prod.mk.injEq] at h
            obtain ⟨rfl, rfl⟩ := h
            exact .stop (by simpa using hnext)

theorem parseFlags_of_reads {o o' : Options} {args rest : List Argument}
    (h : Reads o args o' rest) :
    ∀ fuel, args.length ≤ fuel → parseFlags fuel o args = .ok (o', rest) := by
  induction h with
  | @stop o args hstop =>
      intro fuel _
      cases fuel with
      | zero => rfl
      | succ fuel =>
          cases args with
          | nil => rfl
          | cons arg args =>
              rw [parseFlags, hstop]
              rfl
  | @next o o₁ o' arg args args₁ rest hnext hflag _ ih =>
      intro fuel hfuel
      rw [List.length_cons] at hfuel
      have hlen := hflag.length
      obtain ⟨fuel, rfl⟩ := Nat.exists_eq_succ_of_ne_zero (by omega : fuel ≠ 0)
      rw [parseFlags, if_pos hnext, parseFlag_of_flag hflag]
      exact ih fuel (by omega)

/-- What every flag keeps, the loop keeps. -/
theorem Reads.invariant {P : Options → Prop}
    (hkeep : ∀ o arg args o' args', Flag o arg args o' args' → P o → P o')
    {o o' : Options} {args rest : List Argument} (h : Reads o args o' rest) (ho : P o) :
    P o' := by
  induction h with
  | stop => exact ho
  | next _ hflag _ ih => exact ih (hkeep _ _ _ _ _ hflag ho)

/-! ### What comes after the flags -/

theorem parseRest_worker_ok {o o' : Options} {rest : List Argument}
    (hcommand : o.command = .worker) (h : parseRest o rest = .ok o') :
    ∃ endpoint, rest = [endpoint] ∧ o' = { o with endpoint := ⟨endpoint.val⟩ } := by
  unfold parseRest at h
  simp only [hcommand] at h
  split at h
  · rename_i endpoint
    rw [Except.ok.injEq] at h
    refine ⟨endpoint, rfl, ?_⟩
    rw [hcommand]
    exact h.symm
  · exact absurd h (by simp [refuse])

theorem parseRest_nothing_ok {o o' : Options} {rest : List Argument}
    (hcommand : o.command = .proxy ∨ o.command = .unittest) (h : parseRest o rest = .ok o') :
    rest = [] ∧ o' = o := by
  unfold parseRest at h
  rcases hcommand with hcommand | hcommand
  all_goals
    simp only [hcommand] at h
    split at h
    · rename_i hnil
      rw [Except.ok.injEq] at h
      exact ⟨hnil, h.symm⟩
    · exact absurd h (by simp [refuse])

theorem parseRest_controller_ok {o o' : Options} {rest : List Argument}
    (hcommand : o.command = .controller) (h : parseRest o rest = .ok o') :
    ∃ spec executable parameters frames, rest = spec :: executable :: parameters ∧
      Frames.parse spec.val = .ok frames ∧ isPathnameLocal executable.val = true ∧
      o' = { o with
        frames := frames
        executable := executable.val
        arguments := o.arguments ++ parameters.map Subtype.val } := by
  unfold parseRest at h
  simp only [hcommand] at h
  split at h
  · rename_i spec executable parameters
    split at h
    · exact absurd h (by simp)
    · rename_i frames hspec
      split at h
      · rename_i hlocal
        rw [Except.ok.injEq] at h
        refine ⟨spec, executable, parameters, frames, rfl, hspec, hlocal, ?_⟩
        rw [hcommand]
        exact h.symm
      · exact absurd h (by simp [refuse])
  · exact absurd h (by simp [refuse])

theorem parseRest_controller {o : Options} {spec executable : Argument} {frames : Frames}
    (hcommand : o.command = .controller) (hspec : Frames.parse spec.val = .ok frames)
    (hlocal : isPathnameLocal executable.val = true) (parameters : List Argument) :
    parseRest o (spec :: executable :: parameters) = .ok { o with
      frames := frames
      executable := executable.val
      arguments := o.arguments ++ parameters.map Subtype.val } := by
  unfold parseRest
  simp only [hcommand, hspec, hlocal, if_true]

/-! ### The whole line -/

/-- A line that is accepted: the name of a command, a run of its flags, and the rest. -/
theorem reads_of_parseArguments {argv : List Argument} {o : Options}
    (h : parseArguments argv = .ok o) :
    ∃ program name args command o₁ rest, argv = program :: name :: args ∧
      commandOf name.val = some command ∧
      Reads { make with command := command } args o₁ rest ∧ parseRest o₁ rest = .ok o := by
  unfold parseArguments at h
  split at h
  · exact absurd h (by simp)
  · exact absurd h (by simp)
  · rename_i program name args
    split at h
    · exact absurd h (by simp)
    · split at h
      · exact absurd h (by simp [refuse])
      · rename_i command hname
        cases hflags : parseFlags args.length { make with command := command } args with
        | error why => rw [hflags] at h; exact absurd h (by simp [bind, Except.bind])
        | ok parsed =>
            obtain ⟨o₁, rest⟩ := parsed
            rw [hflags] at h
            have hreads := reads_of_parseFlags _ _ _ _ _ (Nat.le_refl _) hflags
            exact ⟨program, name, args, command, o₁, rest, rfl, hname, hreads, h⟩

end Options

/-! ### What has been checked

Only one name of a copy is checked, that of the file at the worker's end, which is the
destination on the way in and the source on the way out.  Nothing else that goes to a worker
as a name comes from the command line, but the program.
-/

/-- A local pathname that came from the command line. -/
def CheckedPathname (s : Bytes) : Prop := isPathnameLocal s = true ∧ 0 ∉ s

/-- Every name that a worker is asked to use has been checked. -/
structure Parameters.Checked (p : Parameters) : Prop where
  ins : ∀ c ∈ p.inCopies, CheckedPathname c.destination
  outs : ∀ c ∈ p.outCopies, CheckedPathname c.source
  executable : isPathnameLocal p.executable = true

namespace Options

theorem Flag.checked {o o' : Options} {arg : Bytes} {args args' : List Argument}
    (h : Flag o arg args o' args') (ho : o.Checked) : o'.Checked := by
  cases h with
  | copyIn source destination _ _ hlocal =>
      refine ⟨?_, ho.outs, ho.executable⟩
      intro c hc
      rcases List.mem_append.mp hc with hc | hc
      · exact ho.ins c hc
      · rw [List.mem_singleton.mp hc]
        exact ⟨hlocal, destination.property⟩
  | copyOut source destination _ _ hlocal =>
      refine ⟨ho.ins, ?_, ho.executable⟩
      intro c hc
      rcases List.mem_append.mp hc with hc | hc
      · exact ho.outs c hc
      · rw [List.mem_singleton.mp hc]
        exact ⟨hlocal, source.property⟩
  | proxy => exact ⟨ho.ins, ho.outs, ho.executable⟩
  | listen => exact ⟨ho.ins, ho.outs, ho.executable⟩
  | workerListen => exact ⟨ho.ins, ho.outs, ho.executable⟩
  | controllerListen => exact ⟨ho.ins, ho.outs, ho.executable⟩

theorem parseRest_checked {o o' : Options} {args : List Argument}
    (h : o.parseRest args = .ok o') (ho : o.Checked) : o'.Checked := by
  cases hcommand : o.command with
  | worker =>
      obtain ⟨endpoint, -, rfl⟩ := parseRest_worker_ok hcommand h
      exact ⟨ho.ins, ho.outs, ho.executable⟩
  | proxy =>
      obtain ⟨-, rfl⟩ := parseRest_nothing_ok (Or.inl hcommand) h
      exact ho
  | controller =>
      obtain ⟨_, _, _, _, -, -, hlocal, rfl⟩ := parseRest_controller_ok hcommand h
      exact ⟨ho.ins, ho.outs, hlocal⟩
  | unittest =>
      obtain ⟨-, rfl⟩ := parseRest_nothing_ok (Or.inr hcommand) h
      exact ho
  | unspecified =>
      unfold parseRest at h
      simp only [hcommand] at h
      exact absurd h (by simp)

theorem checked_make (command : Command) :
    ({ make with command := command } : Options).Checked :=
  ⟨fun _ h => absurd h List.not_mem_nil, fun _ h => absurd h List.not_mem_nil, rfl⟩

/-- **Whatever `parse_arguments` accepts has been checked.** -/
theorem checked_of_parseArguments {argv : List Argument} {o : Options}
    (h : parseArguments argv = .ok o) : o.Checked := by
  obtain ⟨_, _, _, command, o₁, _, -, -, hreads, hrest⟩ := reads_of_parseArguments h
  have hchecked : o₁.Checked :=
    hreads.invariant (P := fun o => o.Checked) (fun _ _ _ _ _ => Flag.checked)
      (checked_make command)
  exact parseRest_checked hrest hchecked

end Options

end Distray
