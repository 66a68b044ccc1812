/-
Arithmetic progressions, and where they pass a bound.

A counting loop starts somewhere and adds the same step until it is past its last
value: above it when the step is positive, and below it otherwise.  What such a loop
goes through is the progression up to its crossing, the first term that is past.  With
a step other than zero there always is one, and nothing before it is met twice; without
one, a loop that starts short of its end stays there.
-/
import Mathlib.Algebra.Order.Archimedean.Basic
import Mathlib.Data.List.Nodup

namespace Progression

section

variable {α : Type} [AddCommGroup α]

/-- The term after `k` steps. -/
def term (a d : α) (k : Nat) : α := a + k • d

/-- The first `n` terms, in order. -/
def terms (a d : α) (n : Nat) : List α := (List.range n).map (term a d)

@[simp] theorem term_zero (a d : α) : term a d 0 = a := by simp [term]

theorem term_succ (a d : α) (k : Nat) : term a d (k + 1) = term (a + d) d k := by
  rw [term, term, succ_nsmul', add_assoc]

@[simp] theorem length_terms (a d : α) (n : Nat) : (terms a d n).length = n := by simp [terms]

@[simp] theorem terms_zero (a d : α) : terms a d 0 = [] := rfl

/-- The terms after the first are those of the progression that starts one step later. -/
theorem terms_succ (a d : α) (n : Nat) : terms a d (n + 1) = a :: terms (a + d) d n := by
  have hshift : term a d ∘ Nat.succ = term (a + d) d := funext fun k => term_succ a d k
  rw [terms, List.range_succ_eq_map, List.map_cons, List.map_map, hshift, term_zero]
  rfl

theorem getLast?_terms (a d : α) (n : Nat) : (terms a d (n + 1)).getLast? = some (term a d n) := by
  rw [terms, List.range_succ, List.map_append, List.map_singleton, List.getLast?_concat]

/-! ### Where the bound is crossed

The crossing is the first term past the bound.  There is no second one, since what is past
the bound stays past it; and up to there no term comes twice, since a progression with a
step other than zero never comes back.
-/

variable [LinearOrder α] {a d last : α}

/-- Beyond `last`, in the direction of the step. -/
def Past (d last x : α) : Prop := if 0 < d then last < x else x < last

instance (d last x : α) : Decidable (Past d last x) :=
  inferInstanceAs (Decidable (if 0 < d then last < x else x < last))

/-- The first term that is past `last` comes after `n` steps. -/
structure Crosses (a d last : α) (n : Nat) : Prop where
  short : ∀ k, k < n → ¬ Past d last (term a d k)
  past : Past d last (term a d n)

theorem crosses_zero : Crosses a d last 0 ↔ Past d last a := by
  constructor
  · intro h
    simpa using h.past
  · intro h
    exact ⟨fun k hk => absurd hk (Nat.not_lt_zero k), by simpa using h⟩

theorem crosses_succ {n : Nat} :
    Crosses a d last (n + 1) ↔ ¬ Past d last a ∧ Crosses (a + d) d last n := by
  constructor
  · intro h
    refine ⟨by simpa using h.short 0 (Nat.succ_pos n), ⟨?_, ?_⟩⟩
    · intro k hk
      rw [← term_succ]
      exact h.short (k + 1) (Nat.succ_lt_succ hk)
    · rw [← term_succ]
      exact h.past
  · rintro ⟨hfirst, hrest⟩
    refine ⟨?_, ?_⟩
    · intro k hk
      cases k with
      | zero => simpa using hfirst
      | succ k =>
          rw [term_succ]
          exact hrest.short k (Nat.lt_of_succ_lt_succ hk)
    · rw [term_succ]
      exact hrest.past

theorem Crosses.unique {m n : Nat} (h : Crosses a d last m) (h' : Crosses a d last n) : m = n := by
  rcases Nat.lt_trichotomy m n with hlt | heq | hgt
  · exact absurd h.past (h'.short m hlt)
  · exact heq
  · exact absurd h'.past (h.short n hgt)

theorem not_crosses_zero_step (h : ¬ Past 0 last a) (n : Nat) : ¬ Crosses a 0 last n := by
  intro hn
  have hpast := hn.past
  rw [term, nsmul_zero, add_zero] at hpast
  exact h hpast

variable [IsOrderedAddMonoid α]

theorem Past.add {x : α} (h : Past d last x) (hd : d ≠ 0) : Past d last (x + d) := by
  unfold Past at h ⊢
  by_cases hpos : 0 < d
  · rw [if_pos hpos] at h ⊢
    exact h.trans (lt_add_of_pos_right x hpos)
  · rw [if_neg hpos] at h ⊢
    have hneg : d < 0 := lt_of_le_of_ne (not_lt.mp hpos) hd
    exact (add_lt_of_neg_right x hneg).trans h

theorem Past.later (hd : d ≠ 0) {j k : Nat} (hjk : j ≤ k) (h : Past d last (term a d j)) :
    Past d last (term a d k) := by
  induction hjk with
  | refl => exact h
  | step _ ih =>
      rw [term, succ_nsmul, ← add_assoc]
      exact ih.add hd

/-- The terms before the crossing are those that are not past the bound. -/
theorem Crosses.lt_iff {n : Nat} (h : Crosses a d last n) (hd : d ≠ 0) (k : Nat) :
    k < n ↔ ¬ Past d last (term a d k) := by
  constructor
  · exact h.short k
  · intro hk
    by_contra hle
    exact hk (h.past.later hd (Nat.le_of_not_lt hle))

theorem term_injective (hd : d ≠ 0) : Function.Injective (term a d) := by
  have hstep : ∀ j k : Nat, j < k → term a d j ≠ term a d k := by
    intro j k hjk heq
    -- with itself for a bound, a term is short and all later ones are past
    have hshort : ¬ Past d (term a d j) (term a d j) := by
      unfold Past
      split <;> exact lt_irrefl _
    have hnext : Past d (term a d j) (term a d (j + 1)) := by
      unfold Past
      rw [term, term, succ_nsmul, ← add_assoc]
      by_cases hpos : 0 < d
      · rw [if_pos hpos]
        exact lt_add_of_pos_right _ hpos
      · rw [if_neg hpos]
        exact add_lt_of_neg_right _ (lt_of_le_of_ne (not_lt.mp hpos) hd)
    have hlater := hnext.later hd hjk
    rw [← heq] at hlater
    exact hshort hlater
  intro j k heq
  rcases Nat.lt_trichotomy j k with hlt | hsame | hgt
  · exact absurd heq (hstep j k hlt)
  · exact hsame
  · exact absurd heq.symm (hstep k j hgt)

theorem nodup_terms (hd : d ≠ 0) (n : Nat) : (terms a d n).Nodup :=
  List.nodup_range.map (term_injective hd)

/-- **A step other than zero gets past any bound.** -/
theorem exists_crosses [Archimedean α] (hd : d ≠ 0) : ∃ n, Crosses a d last n := by
  have hsome : ∃ n, Past d last (term a d n) := by
    unfold Past
    by_cases hpos : 0 < d
    · obtain ⟨n, hn⟩ := Archimedean.arch (last - a) hpos
      refine ⟨n + 1, ?_⟩
      rw [if_pos hpos, term, succ_nsmul, ← add_assoc]
      exact (sub_le_iff_le_add'.mp hn).trans_lt (lt_add_of_pos_right _ hpos)
    · have hneg : d < 0 := lt_of_le_of_ne (not_lt.mp hpos) hd
      obtain ⟨n, hn⟩ := Archimedean.arch (a - last) (neg_pos.mpr hneg)
      refine ⟨n + 1, ?_⟩
      rw [neg_nsmul, sub_le_iff_le_add', ← sub_eq_add_neg, le_sub_iff_add_le] at hn
      rw [if_neg hpos, term, succ_nsmul, ← add_assoc]
      exact (add_lt_of_neg_right _ hneg).trans_le hn
  classical
  exact ⟨Nat.find hsome, fun k hk => Nat.find_min hsome hk, Nat.find_spec hsome⟩

end

/-! ### Whole numbers

Over the integers the crossing can be computed.  The quotient rounds towards zero, as it
does in most programming languages, and as the range and the step have the same sign there
is no difference to rounding down.
-/

theorem tdiv_nonneg {a d last : Int} (hfirst : ¬ Past d last a) : 0 ≤ (last - a).tdiv d := by
  unfold Past at hfirst
  by_cases hpos : 0 < d
  · rw [if_pos hpos, not_lt] at hfirst
    exact Int.tdiv_nonneg (by omega) (le_of_lt hpos)
  · rw [if_neg hpos, not_lt] at hfirst
    exact Int.tdiv_nonneg_of_nonpos_of_nonpos (by omega) (not_lt.mp hpos)

/-- How many steps it takes to cross the bound, from the distance and the step. -/
theorem crosses_div {a d last : Int} (hd : d ≠ 0) (hfirst : ¬ Past d last a) :
    Crosses a d last (((last - a).tdiv d).toNat + 1) := by
  have hterm : ∀ k : Nat, term a d k = a + k * d := fun k => by rw [term, nsmul_eq_mul]
  have hnonneg := tdiv_nonneg hfirst
  unfold Past at hfirst
  by_cases hpos : 0 < d
  · rw [if_pos hpos, not_lt] at hfirst
    have hq : (last - a).tdiv d = (last - a) / d := Int.tdiv_eq_ediv_of_nonneg (by omega)
    have hlow : (last - a) / d * d ≤ last - a := Int.ediv_mul_le _ hd
    have hhigh : last - a < ((last - a) / d + 1) * d := Int.lt_ediv_add_one_mul_self _ hpos
    rw [hq] at hnonneg ⊢
    refine ⟨?_, ?_⟩
    · intro k hk
      have hle : (k : Int) ≤ (last - a) / d := by omega
      have hmul := mul_le_mul_of_nonneg_right hle (le_of_lt hpos)
      rw [Past, if_pos hpos, hterm, not_lt]
      omega
    · rw [Past, if_pos hpos, hterm]
      push_cast
      rw [Int.toNat_of_nonneg hnonneg]
      omega
  · have hneg : 0 < -d := by omega
    rw [if_neg hpos, not_lt] at hfirst
    have hq : (last - a).tdiv d = (a - last) / (-d) := by
      rw [← Int.tdiv_eq_ediv_of_nonneg (by omega), Int.tdiv_neg, ← Int.neg_tdiv, neg_sub]
    have hlow : (a - last) / (-d) * (-d) ≤ a - last := Int.ediv_mul_le _ (by omega)
    have hhigh : a - last < ((a - last) / (-d) + 1) * (-d) := Int.lt_ediv_add_one_mul_self _ hneg
    rw [hq] at hnonneg ⊢
    generalize (a - last) / (-d) = q at hnonneg hlow hhigh
    refine ⟨?_, ?_⟩
    · intro k hk
      have hle : (k : Int) ≤ q := by omega
      have hmul := mul_le_mul_of_nonneg_right hle (le_of_lt hneg)
      rw [Past, if_neg hpos, hterm, not_lt]
      rw [mul_neg, mul_neg] at hmul
      rw [mul_neg] at hlow
      omega
    · rw [Past, if_neg hpos, hterm]
      push_cast
      rw [Int.toNat_of_nonneg hnonneg]
      rw [mul_neg, add_mul, one_mul] at hhigh
      rw [add_mul, one_mul]
      omega

theorem term_crossing {a d last : Int} (hfirst : ¬ Past d last a) :
    term a d (((last - a).tdiv d).toNat + 1) = a + ((last - a).tdiv d + 1) * d := by
  rw [term, nsmul_eq_mul]
  push_cast
  rw [Int.toNat_of_nonneg (tdiv_nonneg hfirst)]

end Progression
