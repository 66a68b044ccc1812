/-
A list parted at a position.

What is done to one element of a list is easiest to follow with the list written as
what is before it, the element, and what is after it: then changing it, replacing it
and taking it out are all plain appends.

The same holds of a list that is put together from pieces, one for each element of
another: a position in it lies in one of the pieces, and what is before it there is the
end of all that is before it.  And two lists whose images under two functions are the
same list correspond, element by element, in whatever the two images tell of them.
-/
import Mathlib.Data.List.Basic
import Mathlib.Data.List.Forall2

namespace Parts

variable {α β : Type}

theorem exists_parts {l : List α} {k : Nat} {a : α} (h : l[k]? = some a) :
    ∃ before after, l = before ++ a :: after ∧ before.length = k := by
  obtain ⟨hlt, rfl⟩ := List.getElem?_eq_some_iff.mp h
  refine ⟨l.take k, l.drop (k + 1), ?_, by simp; omega⟩
  rw [← List.drop_eq_getElem_cons hlt, List.take_append_drop]

theorem modify_parts (before after : List α) (a : α) (f : α → α) :
    (before ++ a :: after).modify before.length f = before ++ f a :: after := by
  induction before with
  | nil => rfl
  | cons x rest ih => simp [ih]

theorem set_parts (before after : List α) (a b : α) :
    (before ++ a :: after).set before.length b = before ++ b :: after := by
  induction before with
  | nil => rfl
  | cons x rest ih => simp

theorem eraseIdx_parts (before after : List α) (a : α) :
    (before ++ a :: after).eraseIdx before.length = before ++ after := by
  induction before with
  | nil => rfl
  | cons x rest ih => simp [ih]

theorem modify_eq_set {l : List α} {k : Nat} {a : α} (h : l[k]? = some a) (f : α → α) :
    l.modify k f = l.set k (f a) := by
  obtain ⟨before, after, rfl, rfl⟩ := exists_parts h
  rw [modify_parts, set_parts]

/-- A replacement is not seen by what does not tell the two apart. -/
theorem map_set_of_eq {l : List α} {k : Nat} {a b : α} {f : α → β} (ha : l[k]? = some a)
    (h : f b = f a) : (l.set k b).map f = l.map f := by
  obtain ⟨before, after, rfl, rfl⟩ := exists_parts ha
  rw [set_parts, List.map_append, List.map_cons, h, List.map_append, List.map_cons]

/-- Where the values that count are all different, one of them is at one position only. -/
theorem unique_of_nodup {f : α → β} {p : β → Bool} :
    ∀ {l : List α} {i j : Nat} {a b : α}, ((l.map f).filter p).Nodup → l[i]? = some a →
      l[j]? = some b → p (f a) = true → f b = f a → i = j := by
  intro l
  induction l with
  | nil => intro i j a b _ ha; simp at ha
  | cons x rest ih =>
      intro i j a b hnodup ha hb hp heq
      have hrest : ∀ {k : Nat} {c : α}, rest[k]? = some c → f c = f a →
          f a ∈ (rest.map f).filter p := by
        intro k c hc hca
        rw [List.mem_filter, ← hca]
        exact ⟨List.mem_map_of_mem (List.mem_of_getElem? hc), hca ▸ hp⟩
      cases i with
      | zero =>
          cases j with
          | zero => rfl
          | succ j =>
              simp only [List.getElem?_cons_zero, Option.some.injEq] at ha
              subst ha
              rw [List.map_cons, List.filter_cons_of_pos hp, List.nodup_cons] at hnodup
              exact absurd (hrest (by simpa using hb) heq) hnodup.1
      | succ i =>
          cases j with
          | zero =>
              simp only [List.getElem?_cons_zero, Option.some.injEq] at hb
              subst hb
              rw [List.map_cons, List.filter_cons_of_pos (heq ▸ hp), List.nodup_cons, heq] at hnodup
              exact absurd (hrest (by simpa using ha) rfl) hnodup.1
          | succ j =>
              have hsub := ((List.sublist_cons_self x rest).map f).filter p
              exact congrArg _ (ih (hnodup.sublist hsub) (by simpa using ha) (by simpa using hb)
                hp heq)

/-! ### Lists put together, and lists that correspond -/

/-- A part of a list that is put together from pieces lies in one of them. -/
theorem exists_of_flatMap_eq {f : α → List β} :
    ∀ {l : List α} {before after : List β} {b : β}, l.flatMap f = before ++ b :: after →
      ∃ a ∈ l, ∃ before' after', f a = before' ++ b :: after' ∧ before' <:+ before := by
  intro l
  induction l with
  | nil => intro before after b h; simp at h
  | cons a rest ih =>
      intro before after b h
      rw [List.flatMap_cons, List.append_eq_append_iff] at h
      rcases h with ⟨more, hbefore, hrest⟩ | ⟨more, ha, hafter⟩
      · obtain ⟨a', ha', before', after', hparts, hsuffix⟩ := ih hrest
        refine ⟨a', List.mem_cons_of_mem _ ha', before', after', hparts, ?_⟩
        rw [hbefore]
        exact hsuffix.trans (List.suffix_append _ _)
      · cases more with
        | nil =>
            have hrest : rest.flatMap f = [] ++ b :: after := hafter.symm
            obtain ⟨a', ha', before', after', hparts, hsuffix⟩ := ih hrest
            refine ⟨a', List.mem_cons_of_mem _ ha', before', after', hparts, ?_⟩
            exact hsuffix.trans List.nil_suffix
        | cons b' more =>
            rw [List.cons_append, List.cons.injEq] at hafter
            refine ⟨a, List.mem_cons_self, before, more, ?_, List.suffix_refl _⟩
            rw [ha, hafter.1]

theorem forall₂_of_map_eq {γ : Type} {f : α → γ} {g : β → γ} {R : α → β → Prop} :
    ∀ {l : List α} {l' : List β}, l.map f = l'.map g →
      (∀ a ∈ l, ∀ b ∈ l', f a = g b → R a b) → List.Forall₂ R l l' := by
  intro l
  induction l with
  | nil =>
      intro l' h _
      rw [List.map_nil, List.nil_eq, List.map_eq_nil_iff] at h
      rw [h]
      exact .nil
  | cons a rest ih =>
      intro l' h hR
      cases l' with
      | nil => exact absurd h (by simp)
      | cons b rest' =>
          rw [List.map_cons, List.map_cons, List.cons.injEq] at h
          exact .cons (hR a (by simp) b (by simp) h.1)
            (ih h.2 fun a ha b hb => hR a (List.mem_cons_of_mem _ ha) b (List.mem_cons_of_mem _ hb))

end Parts
