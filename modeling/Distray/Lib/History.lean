/-
Machines that remember.

What a machine has done is often not to be seen in its state, and then a statement
about the past needs a record that the steps write and that no step reads.  Such a
record changes nothing: without it, a run of the machine that remembers is a run of the
machine.  So an invariant may speak of the record, and use what holds of the state alone.

There are two ways to use it.  A run without a record can be given one, which is how the
past of a run comes to be spoken of at all; and what was proved of the machine alone holds
of the machine that remembers, since it takes the same steps.
-/
import Distray.Lib.Machine

namespace Machine

variable {S I E : Type}

/-- A machine with a record of what `note` says about its steps, oldest first. -/
def recording (m : Machine S I) (note : S → I → List E) : Machine (S × List E) I where
  init := (m.init, [])
  step x i := (m.step x.1 i).map fun t => (t, x.2 ++ note x.1 i)

/-- A condition on steps, where there is a record. -/
def Onto (ok : S → I → Prop) (x : S × List E) (i : I) : Prop := ok x.1 i

instance (ok : S → I → Prop) [∀ s i, Decidable (ok s i)] (x : S × List E) (i : I) :
    Decidable (Onto ok x i) :=
  inferInstanceAs (Decidable (ok x.1 i))

variable {m : Machine S I} {note : S → I → List E} {ok : S → I → Prop}

theorem recording_step {x y : S × List E} {i : I} :
    (m.recording note).step x i = some y ↔
      ∃ t, m.step x.1 i = some t ∧ y = (t, x.2 ++ note x.1 i) := by
  show (m.step x.1 i).map (fun t => (t, x.2 ++ note x.1 i)) = some y ↔ _
  rw [Option.map_eq_some_iff]
  constructor
  · rintro ⟨t, ht, rfl⟩
    exact ⟨t, ht, rfl⟩
  · rintro ⟨t, ht, rfl⟩
    exact ⟨t, ht, rfl⟩

theorem Run.forget {x y : S × List E} (h : (m.recording note).Run (Onto ok) x y) :
    m.Run ok x.1 y.1 := by
  induction h with
  | refl => exact .refl _
  | step _ hok hstep ih =>
      obtain ⟨t, ht, rfl⟩ := recording_step.mp hstep
      exact .step ih hok ht

theorem Reach.forget {x : S × List E} (h : (m.recording note).Reach (Onto ok) x) :
    m.Reach ok x.1 :=
  Run.forget h

/-- **An invariant that speaks of the record.** -/
theorem Reach.recorded {P : S → List E → Prop} (hinit : P m.init [])
    (hkeep : ∀ s es i t, P s es → ok s i → m.step s i = some t → P t (es ++ note s i))
    {x : S × List E} (h : (m.recording note).Reach (Onto ok) x) : P x.1 x.2 := by
  refine Reach.invariant (P := fun x => P x.1 x.2) hinit ?_ h
  intro x i y hx hok hstep
  obtain ⟨t, ht, rfl⟩ := recording_step.mp hstep
  exact hkeep _ _ _ _ hx hok ht

end Machine
