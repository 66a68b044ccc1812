/-
One machine behaves like another.

When two machines are kept in related states by steps that match — a step of the one,
and none, one or several of the other — every run of the first comes with a run of the
second that ends in a related state.  So what holds in every reachable state of the
second holds, through the relation, of the first.  The relation need not be a function:
the second may know things that can no longer be read off the first.

Steps of the second machine may be restricted too, and then the match has to bring steps
that are allowed.  What is proved of allowed runs of the one is so carried over to allowed
runs of the other.
-/
import Distray.Lib.Machine

namespace Machine

variable {S I S' I' : Type} {m : Machine S I} {m' : Machine S' I'} {ok : S → I → Prop}
  {ok' : S' → I' → Prop}

/-- From related states every step is matched, and the states stay related. -/
def Matches (m : Machine S I) (m' : Machine S' I') (ok : S → I → Prop) (ok' : S' → I' → Prop)
    (R : S → S' → Prop) : Prop :=
  ∀ s i t s', R s s' → ok s i → m.step s i = some t → ∃ t', m'.Run ok' s' t' ∧ R t t'

/-- **A run is matched by a run.** -/
theorem Matches.run {R : S → S' → Prop} (h : Matches m m' ok ok' R) {s t : S} {s' : S'}
    (hrun : m.Run ok s t) (hs : R s s') : ∃ t', m'.Run ok' s' t' ∧ R t t' := by
  induction hrun with
  | refl => exact ⟨s', .refl _, hs⟩
  | step _ hok hstep ih =>
      obtain ⟨u', hrun', hu⟩ := ih
      obtain ⟨t', hmore, ht⟩ := h _ _ _ _ hu hok hstep
      exact ⟨t', hrun'.trans hmore, ht⟩

/-- **Every reachable state is related to a reachable one.** -/
theorem Matches.reach {R : S → S' → Prop} (h : Matches m m' ok ok' R) (hinit : R m.init m'.init)
    {s : S} (hs : m.Reach ok s) : ∃ s', m'.Reach ok' s' ∧ R s s' :=
  h.run hs hinit

theorem Run.one {s t : S} {i : I} (hok : ok s i) (hstep : m.step s i = some t) : m.Run ok s t :=
  .step (.refl s) hok hstep

end Machine
