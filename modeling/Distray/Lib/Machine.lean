/-
Machines that take one input at a time.

A program that waits for the outside world, reacts, and waits again is a start
state and a partial step function: `step s i` is the state after input `i`, and
`none` when `i` is not something that can happen in `s`.  What is proved about
such a program is proved about its runs, and the runs worth quantifying over are
often restricted — every `accept` returns a fresh descriptor, every message fits
its length field — so a run carries a predicate `ok` that each of its steps met.

Three rules are all the developments above need: an invariant is proved from one
step, a run of the machine is a run of anything it simulates, and a finite list of
inputs that the machine accepts is a run.
-/
import Mathlib.Logic.Relation

/-- A start state, and what each input does to a state. -/
structure Machine (S I : Type) where
  init : S
  step : S → I → Option S

namespace Machine

variable {S I : Type} (m : Machine S I)

/-- Getting from one state to another by steps that all meet `ok`. -/
inductive Run (ok : S → I → Prop) : S → S → Prop
  | refl (s : S) : Run ok s s
  | step {s t u : S} {i : I} (h : Run ok s t) (hok : ok t i) (hstep : m.step t i = some u) :
      Run ok s u

/-- No restriction on the steps of a run. -/
def Any : S → I → Prop := fun _ _ => True

/-- Reachable from the start by steps that meet `ok`. -/
def Reach (ok : S → I → Prop) (s : S) : Prop := m.Run ok m.init s

instance (s : S) (i : I) : Decidable (Any s i) := inferInstanceAs (Decidable True)

variable {m} {ok ok' : S → I → Prop}

theorem Run.trans {s t u : S} (h : m.Run ok s t) (h' : m.Run ok t u) : m.Run ok s u := by
  induction h' with
  | refl => exact h
  | step _ hok hstep ih => exact .step ih hok hstep

theorem Run.mono (himp : ∀ s i, ok s i → ok' s i) {s t : S} (h : m.Run ok s t) :
    m.Run ok' s t := by
  induction h with
  | refl => exact .refl _
  | step _ hok hstep ih => exact .step ih (himp _ _ hok) hstep

theorem Reach.init : m.Reach ok m.init := Run.refl _

theorem Reach.any {s : S} (h : m.Reach ok s) : m.Reach Any s :=
  Run.mono (fun _ _ _ => trivial) h

theorem Run.invariant {P : S → Prop}
    (hkeep : ∀ s i t, P s → ok s i → m.step s i = some t → P t) {s t : S}
    (h : m.Run ok s t) (hs : P s) : P t := by
  induction h with
  | refl => exact hs
  | step _ hok hstep ih => exact hkeep _ _ _ ih hok hstep

/-- **An invariant holds in every reachable state.** -/
theorem Reach.invariant {P : S → Prop} (hinit : P m.init)
    (hkeep : ∀ s i t, P s → ok s i → m.step s i = some t → P t) {s : S}
    (h : m.Reach ok s) : P s :=
  Run.invariant hkeep h hinit

/--
**A simulation carries runs over.**  If every step from a state satisfying `P`
moves the abstraction by steps of `R`, so does a whole run, as long as `P` holds
along it.
-/
theorem Run.simulates {A : Type} {R : A → A → Prop} {P : S → Prop} (abs : S → A)
    (hkeep : ∀ s i t, P s → ok s i → m.step s i = some t → P t)
    (hsim : ∀ s i t, P s → ok s i → m.step s i = some t →
      Relation.ReflTransGen R (abs s) (abs t))
    {s t : S} (h : m.Run ok s t) (hs : P s) : Relation.ReflTransGen R (abs s) (abs t) := by
  induction h with
  | refl => exact .refl
  | step h' hok hstep ih => exact ih.trans (hsim _ _ _ (Run.invariant hkeep h' hs) hok hstep)

/-! ### Running a list of inputs

A concrete run is played: `exec` gives the inputs to the machine one after the other and
asks of each whether it may be given.  If the last state comes out, there is a run to it,
and that it comes out can be evaluated.
-/

/-- Feed a list of inputs, stopping at the first that is refused or does not meet `ok`. -/
def exec (m : Machine S I) (ok : S → I → Prop) [∀ s i, Decidable (ok s i)] :
    S → List I → Option S
  | s, [] => some s
  | s, i :: rest =>
      if ok s i then
        match m.step s i with
        | some t => m.exec ok t rest
        | none => none
      else none

theorem Run.of_exec [∀ s i, Decidable (ok s i)] :
    ∀ (is : List I) {s t : S}, m.exec ok s is = some t → m.Run ok s t := by
  intro is
  induction is with
  | nil =>
      intro s t h
      rw [exec, Option.some.injEq] at h
      exact h ▸ .refl s
  | cons i rest ih =>
      intro s t h
      rw [exec] at h
      split at h
      · rename_i hok
        split at h
        · rename_i u hstep
          exact (Run.step (.refl s) hok hstep).trans (ih h)
        · exact absurd h (by simp)
      · exact absurd h (by simp)

/-- The state a list of inputs leads to, if the machine takes them all. -/
theorem Run.of_replay [∀ s i, Decidable (ok s i)] {s d : S} {is : List I}
    (h : (m.exec ok s is).isSome = true) : m.Run ok s ((m.exec ok s is).getD d) := by
  obtain ⟨t, ht⟩ := Option.isSome_iff_exists.mp h
  rw [ht]
  exact Run.of_exec is ht

end Machine
