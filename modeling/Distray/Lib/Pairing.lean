/-
Pairing arrivals of two kinds, first come first served.

A place holds at most one arrival of each kind.  Whoever arrives takes the first place
that has none of its kind, and opens a new place at the end if there is no such; places
are given up as a whole.  Then no two places can wait for different kinds — the second
of them would have been filled instead of opened — and since places are opened at the
end, the first one that waits is the one that has waited longest.

Who arrives is known by a token, which may be anything that can be told apart from the mark
of a vacancy.  Tokens must not be given out twice, and that is all an arrival has to
bring.
-/
import Distray.Lib.Parts
import Mathlib.Data.List.Nodup
import Mathlib.Data.List.Perm.Basic

open scoped List

inductive Side
  | left
  | right
deriving DecidableEq, Repr

def Side.other : Side → Side
  | .left => .right
  | .right => .left

theorem Side.eq_other_of_ne {s t : Side} (h : s ≠ t) : s = t.other := by
  cases s <;> cases t <;> first | rfl | exact absurd rfl h

theorem Side.other_ne (s : Side) : s.other ≠ s := by
  cases s <;> simp [other]

theorem Side.other_other (s : Side) : s.other.other = s := by
  cases s <;> rfl

structure Place (α : Type) where
  left : Option α
  right : Option α
deriving DecidableEq, Repr

namespace Place

variable {α : Type}

def get (p : Place α) : Side → Option α
  | .left => p.left
  | .right => p.right

def put (p : Place α) (a : α) : Side → Place α
  | .left => { p with left := some a }
  | .right => { p with right := some a }

/-- A place with one arrival. -/
def single (a : α) : Side → Place α := put ⟨none, none⟩ a

/-- Who is there. -/
def tokens (p : Place α) : List α := p.left.toList ++ p.right.toList

@[simp] theorem get_put (p : Place α) (a : α) (side : Side) :
    (p.put a side).get side = some a := by
  cases side <;> rfl

theorem get_put_ne (p : Place α) (a : α) {side s : Side} (h : s ≠ side) :
    (p.put a side).get s = p.get s := by
  cases side <;> cases s <;> first | rfl | exact absurd rfl h

/-- Taking a vacant half adds one to those who are there. -/
theorem tokens_put {p : Place α} (a : α) {side : Side} (h : p.get side = none) :
    (p.put a side).tokens ~ a :: p.tokens := by
  cases side with
  | left =>
      have hnone : p.left = none := h
      simp [tokens, put, hnone]
  | right =>
      have hnone : p.right = none := h
      simp only [tokens, put, hnone, Option.toList_some, Option.toList_none, List.append_nil]
      exact List.perm_append_singleton a p.left.toList

end Place

namespace Pairing

variable {α : Type}

/-- Who is there at all. -/
def tokens (l : List (Place α)) : List α := l.flatMap Place.tokens

/-- The position of the first place that has none of a kind. -/
def vacancy (side : Side) (l : List (Place α)) : Option Nat :=
  l.findIdx? fun p => (p.get side).isNone

/-- Someone arrives. -/
def arrive (side : Side) (a : α) (l : List (Place α)) : List (Place α) :=
  match vacancy side l with
  | some k => l.modify k fun p => p.put a side
  | none => l ++ [Place.single a side]

/-- Nobody is in two places, and no two places wait for different kinds. -/
structure Valid (l : List (Place α)) : Prop where
  nodup : (tokens l).Nodup
  oneSided : ∀ p ∈ l, ∀ q ∈ l, ∀ side, p.get side = none → q.get side.other ≠ none

theorem valid_nil : Valid ([] : List (Place α)) := ⟨List.nodup_nil, by simp⟩

/-! ### Arriving

That an arrival takes the first place it can is what keeps the places that wait of one
kind: a new one is opened only when every place has somebody of that kind already, so none
that waits can be waiting for it.
-/

theorem vacancy_eq_some {side : Side} {l : List (Place α)} {k : Nat}
    (h : vacancy side l = some k) :
    ∃ p, l[k]? = some p ∧ p.get side = none ∧
      ∀ j q, j < k → l[j]? = some q → q.get side ≠ none := by
  obtain ⟨hlt, hnone, hfirst⟩ := List.findIdx?_eq_some_iff_getElem.mp h
  refine ⟨l[k], List.getElem?_eq_getElem hlt, by simpa using hnone, fun j q hj hq => ?_⟩
  obtain ⟨hjlt, rfl⟩ := List.getElem?_eq_some_iff.mp hq
  simpa using hfirst j hj

theorem vacancy_eq_none {side : Side} {l : List (Place α)} (h : vacancy side l = none) :
    ∀ p ∈ l, p.get side ≠ none := by
  intro p hp hnone
  have hfull := List.findIdx?_eq_none_iff.mp h p hp
  simp [hnone] at hfull

theorem tokens_arrive (side : Side) (a : α) (l : List (Place α)) :
    tokens (arrive side a l) ~ a :: tokens l := by
  unfold arrive
  cases h : vacancy side l with
  | some k =>
      obtain ⟨p, hp, hnone, -⟩ := vacancy_eq_some h
      obtain ⟨before, after, rfl, rfl⟩ := Parts.exists_parts hp
      simp only [Parts.modify_parts, tokens, List.flatMap_append, List.flatMap_cons]
      calc before.flatMap Place.tokens ++ ((p.put a side).tokens ++ after.flatMap Place.tokens)
          ~ before.flatMap Place.tokens ++ ((a :: p.tokens) ++ after.flatMap Place.tokens) :=
            ((p.tokens_put a hnone).append_right _).append_left _
        _ ~ a :: (before.flatMap Place.tokens ++ (p.tokens ++ after.flatMap Place.tokens)) :=
            List.perm_middle
  | none =>
      have hsingle : (Place.single a side).tokens = [a] := by cases side <;> rfl
      simp only [tokens, List.flatMap_append, List.flatMap_singleton, hsingle]
      exact List.perm_append_singleton a _

/-- What there is after an arrival was there before, or has the newcomer in it. -/
theorem mem_arrive {side : Side} {a : α} {l : List (Place α)} {p : Place α}
    (h : p ∈ arrive side a l) :
    p ∈ l ∨ (∃ q ∈ l, q.get side = none ∧ p = q.put a side) ∨
      p = Place.single a side ∧ ∀ q ∈ l, q.get side ≠ none := by
  unfold arrive at h
  cases hv : vacancy side l with
  | some k =>
      obtain ⟨q, hq, hnone, -⟩ := vacancy_eq_some hv
      obtain ⟨before, after, rfl, rfl⟩ := Parts.exists_parts hq
      simp only [hv, Parts.modify_parts, List.mem_append, List.mem_cons] at h
      rcases h with h | rfl | h
      · exact Or.inl (List.mem_append_left _ h)
      · exact Or.inr (Or.inl ⟨q, by simp, hnone, rfl⟩)
      · exact Or.inl (List.mem_append_right _ (List.mem_cons_of_mem _ h))
  | none =>
      simp only [hv, List.mem_append, List.mem_singleton] at h
      rcases h with h | h
      · exact Or.inl h
      · exact Or.inr (Or.inr ⟨h, vacancy_eq_none hv⟩)

/-- **Arrivals leave at most one kind waiting.** -/
theorem Valid.arrive {l : List (Place α)} (h : Valid l) (side : Side) {a : α}
    (hnew : a ∉ tokens l) : Valid (arrive side a l) := by
  refine ⟨(tokens_arrive side a l).nodup_iff.mpr (List.nodup_cons.mpr ⟨hnew, h.nodup⟩), ?_⟩
  intro p hp q hq s hs hother
  -- a half that is vacant now is of another kind, or was vacant before
  have hvacant : ∀ {x : Place α} {t : Side}, x ∈ Pairing.arrive side a l → x.get t = none →
      (∃ y ∈ l, y.get t = none) ∨ t = side.other ∧ ∀ y ∈ l, y.get side ≠ none := by
    intro x t hx hnone
    rcases mem_arrive hx with hx | ⟨y, hy, -, rfl⟩ | ⟨rfl, hfull⟩
    · exact Or.inl ⟨x, hx, hnone⟩
    · have hne : t ≠ side := fun heq => by simp [heq] at hnone
      rw [Place.get_put_ne y a hne] at hnone
      exact Or.inl ⟨y, hy, hnone⟩
    · have hne : t ≠ side := fun heq => by simp [heq, Place.single] at hnone
      exact Or.inr ⟨Side.eq_other_of_ne hne, hfull⟩
  have hback : s.other.other = s := by cases s <;> rfl
  rcases hvacant hp hs with ⟨x, hx, hxs⟩ | ⟨hs', hfull⟩
  · rcases hvacant hq hother with ⟨y, hy, hys⟩ | ⟨ht, hfull⟩
    · exact h.oneSided x hx y hy s hxs hys
    · have hside : s = side := by rw [← hback, ht]; cases side <;> rfl
      exact hfull x hx (hside ▸ hxs)
  · rcases hvacant hq hother with ⟨y, hy, hys⟩ | ⟨ht, -⟩
    · have hside : s.other = side := by rw [hs']; cases side <;> rfl
      exact hfull y hy (hside ▸ hys)
    · exact absurd (ht.trans hs'.symm) s.other_ne

/-! ### Giving up a place -/

theorem tokens_eraseIdx {l : List (Place α)} {k : Nat} {p : Place α} (h : l[k]? = some p) :
    tokens l ~ p.tokens ++ tokens (l.eraseIdx k) := by
  obtain ⟨before, after, rfl, rfl⟩ := Parts.exists_parts h
  simp only [Parts.eraseIdx_parts, tokens, List.flatMap_append, List.flatMap_cons]
  rw [← List.append_assoc, ← List.append_assoc]
  exact List.perm_append_comm.append_right _

theorem Valid.eraseIdx {l : List (Place α)} (h : Valid l) (k : Nat) : Valid (l.eraseIdx k) := by
  have hsub := List.eraseIdx_sublist l k
  refine ⟨?_, fun p hp q hq => h.oneSided p (hsub.subset hp) q (hsub.subset hq)⟩
  cases hk : l[k]? with
  | none =>
      rw [List.eraseIdx_of_length_le (List.getElem?_eq_none_iff.mp hk)]
      exact h.nodup
  | some p => exact (List.nodup_append.mp ((tokens_eraseIdx hk).nodup_iff.mp h.nodup)).2.1

/-! ### What is valid -/

theorem unique {l : List (Place α)} (h : (tokens l).Nodup) {i j : Nat} {p q : Place α} {a : α}
    (hp : l[i]? = some p) (hq : l[j]? = some q) (ha : a ∈ p.tokens) (ha' : a ∈ q.tokens) :
    i = j := by
  by_contra hne
  obtain ⟨before, after, rfl, rfl⟩ := Parts.exists_parts hp
  have hnodup := (tokens_eraseIdx hp).nodup_iff.mp h
  rw [Parts.eraseIdx_parts] at hnodup
  refine (List.nodup_append.mp hnodup).2.2 a ha a ?_ rfl
  refine List.mem_flatMap.mpr ⟨q, ?_, ha'⟩
  have hmem : q ∈ (before ++ p :: after).eraseIdx before.length :=
    List.mem_eraseIdx_iff_getElem?.mpr ⟨j, fun heq => hne heq.symm, hq⟩
  rwa [Parts.eraseIdx_parts] at hmem

end Pairing
