/-
What is bound to happen.

Several parties take steps in an order nobody controls.  From some states on, one with
a certain property is bound to come, whichever steps are taken: there is always a step
to take until then, and the steps cannot go on without it.  The rule for it asks for
both at one state at a time, and for a rank that the steps lower.

Nothing is assumed of who chooses the steps.  It may be that some party is never given a
turn; then it must not be needed, which is why the rule asks that every step lowers the
rank and not only that some step does.
-/
import Distray.Lib.Machine
import Mathlib.Order.WellFounded

namespace Machine

variable {S I : Type} (m : Machine S I)

/-- Whichever steps that meet `ok` are taken, a state that satisfies `P` is bound to come. -/
inductive Inevitably (ok : S → I → Prop) (P : S → Prop) : S → Prop
  | here {s : S} (h : P s) : Inevitably ok P s
  | later {s : S} (hsome : ∃ i t, ok s i ∧ m.step s i = some t)
      (hall : ∀ i t, ok s i → m.step s i = some t → Inevitably ok P t) : Inevitably ok P s

variable {m} {ok : S → I → Prop} {P : S → Prop}

/--
**Progress and a rank make something inevitable.**  As long as `Q` holds and `P` does
not, there is a step, and every step keeps `Q` and lowers the rank, unless it brings `P`.
-/
theorem Inevitably.of_rank {α : Type} [LT α] [WellFoundedLT α] (rank : S → α) {Q : S → Prop}
    (hsome : ∀ s, Q s → ¬ P s → ∃ i t, ok s i ∧ m.step s i = some t)
    (hlower : ∀ s i t, Q s → ¬ P s → ok s i → m.step s i = some t →
      P t ∨ (Q t ∧ rank t < rank s))
    {s : S} (h : Q s) : m.Inevitably ok P s := by
  generalize hr : rank s = r
  induction r using WellFoundedLT.induction generalizing s with
  | ind r ih =>
      by_cases hP : P s
      · exact .here hP
      · refine .later (hsome s h hP) ?_
        intro i t hok hstep
        rcases hlower s i t h hP hok hstep with hPt | ⟨hQ, hlt⟩
        · exact .here hPt
        · exact ih (rank t) (hr ▸ hlt) hQ rfl

/-- The steps cannot go on for ever without it. -/
theorem Inevitably.of_forever {s : S} (h : m.Inevitably ok P s) (run : Nat → S)
    (hstart : run 0 = s)
    (hrun : ∀ n, ∃ i, ok (run n) i ∧ m.step (run n) i = some (run (n + 1))) :
    ∃ n, P (run n) := by
  induction h generalizing run with
  | here h => exact ⟨0, hstart ▸ h⟩
  | later _ _ ih =>
      obtain ⟨i, hok, hstep⟩ := hrun 0
      subst hstart
      obtain ⟨n, hn⟩ := ih i (run 1) hok hstep (fun n => run (n + 1)) rfl fun n => hrun (n + 1)
      exact ⟨n + 1, hn⟩

/-- A run passes such a state, or one is still bound to come where it has got to. -/
theorem Inevitably.along {s t : S} (h : m.Inevitably ok P s) (hrun : m.Run ok s t) :
    (∃ u, m.Run ok s u ∧ m.Run ok u t ∧ P u) ∨ m.Inevitably ok P t := by
  induction hrun with
  | refl => exact Or.inr h
  | @step t u i hrun hok hstep ih =>
      rcases ih with ⟨v, hsv, hvt, hP⟩ | hstill
      · exact Or.inl ⟨v, hsv, hvt.step hok hstep, hP⟩
      · cases hstill with
        | here hPt => exact Or.inl ⟨t, hrun, .step (.refl t) hok hstep, hPt⟩
        | later _ hall => exact Or.inr (hall i u hok hstep)

/-- Nor can they come to an end without having passed it on the way. -/
theorem Inevitably.of_stuck {s t : S} (h : m.Inevitably ok P s) (hrun : m.Run ok s t)
    (hstuck : ∀ i u, ok t i → m.step t i ≠ some u) :
    ∃ u, m.Run ok s u ∧ m.Run ok u t ∧ P u := by
  rcases h.along hrun with hpassed | hstill
  · exact hpassed
  · cases hstill with
    | here hP => exact ⟨t, hrun, .refl t, hP⟩
    | later hsome _ =>
        obtain ⟨i, u, hok, hstep⟩ := hsome
        exact absurd hstep (hstuck i u hok)

/-- **What is bound to come from every state comes again and again.** -/
theorem Inevitably.again {Q : S → Prop} (hkeep : ∀ s i t, Q s → ok s i → m.step s i = some t → Q t)
    (hbound : ∀ s, Q s → m.Inevitably ok P s) (run : Nat → S) (hstart : Q (run 0))
    (hrun : ∀ n, ∃ i, ok (run n) i ∧ m.step (run n) i = some (run (n + 1))) (n : Nat) :
    ∃ k, n ≤ k ∧ P (run k) := by
  have hQ : ∀ n, Q (run n) := by
    intro n
    induction n with
    | zero => exact hstart
    | succ n ih =>
        obtain ⟨i, hok, hstep⟩ := hrun n
        exact hkeep _ _ _ ih hok hstep
  obtain ⟨k, hk⟩ := (hbound (run n) (hQ n)).of_forever (fun k => run (n + k)) rfl
    fun k => hrun (n + k)
  exact ⟨n + k, Nat.le_add_right n k, hk⟩

end Machine
