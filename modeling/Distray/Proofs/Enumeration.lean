/-
What the loop of `get_all` goes through.

The frames are the terms of a progression up to its crossing, the first term past the
last frame.  The loop computes the crossing too, to find that it is past, so what the
loop needs is that every term up to and including the crossing is an `int`.  A step of
zero has no crossing unless the first frame is already past the last.

So the ranges that can be enumerated are those whose crossing can be reached and is an `int`,
and both can be read off the three numbers.
-/
import Distray.Lib.Progression
import Distray.Proofs.Specifications

namespace Distray

namespace Frames

open Progression

/-! ### The loop and the progression

The loop tests a frame, and adds the step to it before it goes on to the next, so that the
sum has to be an `int` even where it is only needed to find that the loop is over.  Where
all of them are, the frames are the terms before the crossing.
-/

theorem isDone_iff (f : Frames) (frame : Int) :
    f.isDone frame = true ↔ Past f.step f.last frame := by
  unfold isDone Past
  by_cases hpos : f.step > 0
  · rw [if_pos hpos, if_pos hpos, decide_eq_true_eq]
  · rw [if_neg hpos, if_neg hpos, decide_eq_true_eq]

/-- One turn of the loop. -/
theorem getAllFrom_succ (f : Frames) (fuel : Nat) (frame : Int) :
    f.getAllFrom (fuel + 1) frame =
      if f.isDone frame then .ok []
      else if FitsInt (frame + f.step) then
        f.getAllFrom fuel (frame + f.step) >>= fun rest => pure (frame :: rest)
      else .undefined := by
  rw [getAllFrom]
  by_cases hdone : f.isDone frame = true
  · rw [if_pos hdone, if_pos hdone]
  · rw [if_neg hdone, if_neg hdone]
    by_cases hfits : FitsInt (frame + f.step)
    · obtain ⟨hlow, hhigh⟩ := hfits
      rw [if_neg (by omega), if_pos ⟨hlow, hhigh⟩]
    · rw [if_neg hfits, if_pos]
      unfold FitsInt at hfits
      omega

/-- **The loop returns the terms before the crossing**, given that many turns and one more. -/
theorem getAllFrom_of_crosses {f : Frames} :
    ∀ (n : Nat) {frame : Int}, Crosses frame f.step f.last n →
      (∀ k, k < n → FitsInt (term frame f.step (k + 1))) →
      ∀ fuel, n < fuel → f.getAllFrom fuel frame = .ok (terms frame f.step n) := by
  intro n
  induction n with
  | zero =>
      intro frame hcross _ fuel hfuel
      obtain ⟨fuel, rfl⟩ := Nat.exists_eq_succ_of_ne_zero (Nat.pos_iff_ne_zero.mp hfuel)
      rw [getAllFrom_succ, if_pos ((isDone_iff f frame).mpr (crosses_zero.mp hcross))]
      rfl
  | succ n ih =>
      intro frame hcross hfits fuel hfuel
      obtain ⟨fuel, rfl⟩ := Nat.exists_eq_succ_of_ne_zero (by omega : fuel ≠ 0)
      obtain ⟨hshort, hrest⟩ := crosses_succ.mp hcross
      have hnext : FitsInt (frame + f.step) := by
        have h := hfits 0 (Nat.succ_pos n)
        rwa [term_succ, term_zero] at h
      have hlater : ∀ k, k < n → FitsInt (term (frame + f.step) f.step (k + 1)) := by
        intro k hk
        rw [← term_succ]
        exact hfits (k + 1) (Nat.succ_lt_succ hk)
      rw [getAllFrom_succ, if_neg (fun h => hshort ((isDone_iff f frame).mp h)), if_pos hnext,
        ih hrest hlater fuel (by omega), terms_succ]
      rfl

/-- **Where the loop returns, the progression crosses**, and each addition gave an `int`. -/
theorem crosses_of_getAllFrom {f : Frames} :
    ∀ (fuel : Nat) {frame : Int} {l : List Int}, f.getAllFrom fuel frame = .ok l →
      ∃ n, Crosses frame f.step f.last n ∧ ∀ k, k < n → FitsInt (term frame f.step (k + 1)) := by
  intro fuel
  induction fuel with
  | zero => intro frame l h; exact absurd h (by simp [getAllFrom])
  | succ fuel ih =>
      intro frame l h
      rw [getAllFrom_succ] at h
      by_cases hdone : f.isDone frame = true
      · refine ⟨0, crosses_zero.mpr ((isDone_iff f frame).mp hdone), ?_⟩
        intro k hk
        exact absurd hk (Nat.not_lt_zero k)
      · rw [if_neg hdone] at h
        by_cases hnext : FitsInt (frame + f.step)
        · rw [if_pos hnext] at h
          obtain ⟨rest, hrest, -⟩ := Outcome.bind_eq_ok.mp h
          obtain ⟨n, hcross, hfits⟩ := ih hrest
          refine ⟨n + 1, crosses_succ.mpr ⟨fun hpast => hdone ((isDone_iff f frame).mpr hpast),
            hcross⟩, ?_⟩
          intro k hk
          rw [term_succ]
          cases k with
          | zero => rwa [term_zero]
          | succ k => exact hfits k (Nat.lt_of_succ_lt_succ hk)
        · rw [if_neg hnext] at h
          exact absurd h (by simp)

/-! ### Every range that is accepted -/

/--
The first frame is past the last, or the step gets past it without leaving `int`: the
first number past the last, which the loop computes as well, is an `int`.
-/
def Enumerable (f : Frames) : Prop :=
  f.isDone f.first = true ∨
    f.step ≠ 0 ∧ FitsInt (f.first + ((f.last - f.first).tdiv f.step + 1) * f.step)

/-- The numbers of a range that was parsed are of type `int`. -/
theorem fits_of_parse {spec : Bytes} {f : Frames} (h : parse spec = .ok f) :
    FitsInt f.first ∧ FitsInt f.last := by
  obtain ⟨numbers, -, rfl⟩ := parse_eq_ok.mp h
  have hget : ∀ (i : Nat) (d : Int), FitsInt d → FitsInt ((numbers.map toInt).getD i d) := by
    intro i d hd
    rw [List.getD_eq_getElem?_getD, List.getElem?_map]
    cases numbers[i]? with
    | none => exact hd
    | some n => exact fitsInt_toInt n
  have hfirst : FitsInt ((numbers.map toInt).getD 0 0) := hget 0 0 (by decide)
  exact ⟨hfirst, hget 1 _ hfirst⟩

/-- Up to the crossing, the terms are between the first frame and the crossing. -/
theorem fits_of_crosses {first step : Int} {n : Nat} (hfirst : FitsInt first)
    (hcross : FitsInt (term first step n)) {k : Nat} (hk : k ≤ n) :
    FitsInt (term first step k) := by
  unfold FitsInt at *
  rw [term, nsmul_eq_mul] at *
  rcases Int.le_total 0 step with hup | hdown
  · have hnonneg := mul_nonneg (Int.natCast_nonneg k) hup
    have hle := mul_le_mul_of_nonneg_right (Int.ofNat_le.mpr hk) hup
    omega
  · have hnonpos := mul_nonpos_of_nonneg_of_nonpos (Int.natCast_nonneg k) hdown
    have hle := mul_le_mul_of_nonpos_right (Int.ofNat_le.mpr hk) hdown
    omega

/--
**A range that is accepted can be enumerated if and only if** its first frame is past its
last or the number after the crossing of its last is an `int`.
-/
theorem enumerable_iff (spec : Bytes) (f : Frames) (h : parse spec = .ok f) :
    (∃ fuel frames, f.getAll fuel = .ok frames) ↔ f.Enumerable := by
  obtain ⟨hfirst, -⟩ := fits_of_parse h
  unfold Enumerable
  by_cases hdone : f.isDone f.first = true
  · have hcross := crosses_zero.mpr ((isDone_iff f f.first).mp hdone)
    have hget := getAllFrom_of_crosses 0 hcross (fun k hk => absurd hk (Nat.not_lt_zero k)) 1
      Nat.one_pos
    exact iff_of_true ⟨1, _, hget⟩ (Or.inl hdone)
  · have hshort : ¬ Past f.step f.last f.first := fun hpast =>
      hdone ((isDone_iff f f.first).mpr hpast)
    rw [or_iff_right hdone]
    by_cases hstep : f.step = 0
    · refine iff_of_false ?_ (fun hright => hright.1 hstep)
      rintro ⟨fuel, frames, hget⟩
      obtain ⟨n, hcross, -⟩ := crosses_of_getAllFrom fuel hget
      rw [hstep] at hcross hshort
      exact not_crosses_zero_step hshort n hcross
    · have hcross := crosses_div hstep hshort
      have hterm := term_crossing hshort
      constructor
      · rintro ⟨fuel, frames, hget⟩
        obtain ⟨n, hcross', hfits⟩ := crosses_of_getAllFrom fuel hget
        rw [hcross'.unique hcross] at hfits
        exact ⟨hstep, hterm ▸ hfits _ (Nat.lt_succ_self _)⟩
      · rintro ⟨-, hfits⟩
        rw [← hterm] at hfits
        refine ⟨_, _, getAllFrom_of_crosses _ hcross ?_ _ (Nat.lt_succ_self _)⟩
        intro k hk
        exact fits_of_crosses hfirst hfits hk

theorem enumerable_iff_tens : (∃ fuel frames, (⟨1, 10, 3⟩ : Frames).getAll fuel = .ok frames) ↔
    (⟨1, 10, 3⟩ : Frames).Enumerable :=
  enumerable_iff (bytes "1,10,3") ⟨1, 10, 3⟩ (by decide)

/-- With a step of zero the loop may never end. -/
theorem not_enumerable_zero_step :
    ¬ ∀ (spec : Bytes) (f : Frames), parse spec = .ok f →
      ∃ fuel frames, f.getAll fuel = .ok frames := by
  intro h
  obtain ⟨fuel, frames, hget⟩ := h (bytes "1,1,0") ⟨1, 1, 0⟩ (by decide)
  obtain ⟨n, hcross, -⟩ := crosses_of_getAllFrom fuel hget
  exact not_crosses_zero_step (by decide) n hcross

-- a last frame that is the largest `int` is one too large
example : (⟨2147483647, 2147483647, 1⟩ : Frames).getAll 2 = .undefined := by decide

/-! ### Which numbers they are

The frames are the terms that are not past the last one, each of them once, and there are
none where the first already is.  Where the specification leaves the step out it is 1 or -1,
and then the last term is the number that was written.
-/

/-- The terms that are not past the last frame, each of them once and in order. -/
structure Enumerates (f : Frames) (frames : List Int) : Prop where
  progression : ∃ n, frames = terms f.first f.step n ∧
    ∀ k, k < n ↔ ¬ Past f.step f.last (term f.first f.step k)
  nodup : frames.Nodup
  empty : Past f.step f.last f.first → frames = []

/-- From the first frame to the last, all of them. -/
structure EndToEnd (first last : Int) (frames : List Int) : Prop where
  starts : frames.head? = some first
  ends : frames.getLast? = some last
  length : frames.length = (last - first).natAbs + 1

theorem enumerates_of_crosses {f : Frames} {n : Nat} (h : Crosses f.first f.step f.last n)
    (hstep : f.step ≠ 0) : f.Enumerates (terms f.first f.step n) where
  progression := ⟨n, rfl, h.lt_iff hstep⟩
  nodup := nodup_terms hstep n
  empty := by
    intro hpast
    rw [h.unique (crosses_zero.mpr hpast), terms_zero]

/-- With a step of one, up or down, the last frame is the last term. -/
theorem endToEnd_of_crosses {f : Frames} {n : Nat} (h : Crosses f.first f.step f.last n)
    (hstep : f.step = if f.first ≤ f.last then 1 else -1) :
    EndToEnd f.first f.last (terms f.first f.step n) := by
  have hunit : f.step = 1 ∧ f.first ≤ f.last ∨ f.step = -1 ∧ f.last < f.first := by
    by_cases hle : f.first ≤ f.last
    · exact Or.inl ⟨by rw [hstep, if_pos hle], hle⟩
    · exact Or.inr ⟨by rw [hstep, if_neg hle], not_le.mp hle⟩
  have hne : f.step ≠ 0 := by omega
  have hshort : ¬ Past f.step f.last f.first := by
    unfold Past
    split <;> omega
  have hdistance : ((f.last - f.first).tdiv f.step).toNat = (f.last - f.first).natAbs := by
    rcases hunit with ⟨hone, hle⟩ | ⟨hone, hlt⟩
    · rw [hone, Int.tdiv_one]
      omega
    · rw [hone, Int.tdiv_neg, Int.tdiv_one]
      omega
  rw [h.unique (crosses_div hne hshort), hdistance]
  refine ⟨by rw [terms_succ]; rfl, ?_, length_terms ..⟩
  rw [getLast?_terms, term, nsmul_eq_mul, Option.some.injEq]
  rcases hunit with ⟨hone, hle⟩ | ⟨hone, hlt⟩ <;> rw [hone] <;> omega

/-- The range of a specification without a step. -/
theorem step_of_parse {spec : Bytes} {f : Frames} {numbers : List Int} (h : parse spec = .ok f)
    (hnumbers : Specification (cStr spec) numbers) (hstep : numbers.length < 3) :
    f.step = (if f.first ≤ f.last then 1 else -1) ∧
      ((∀ n ∈ numbers, FitsInt n) →
        numbers.head? = some f.first ∧ numbers.getLast? = some f.last) := by
  obtain ⟨numbers', hnumbers', rfl⟩ := parse_eq_ok.mp h
  rw [← hnumbers.separated.unique hnumbers'.separated]
  have hs := hnumbers.separated
  generalize cStr spec = text at hs
  cases hs with
  | last =>
      refine ⟨by simp [ofNumbers], ?_⟩
      intro hfits
      rw [map_toInt hfits]
      exact ⟨rfl, rfl⟩
  | more _ hs =>
      cases hs with
      | last =>
          refine ⟨by simp [ofNumbers], ?_⟩
          intro hfits
          rw [map_toInt hfits]
          exact ⟨rfl, rfl⟩
      | more _ hs =>
          cases hs <;> simp only [List.length_cons, List.length_nil] at hstep <;> omega

/-- What the loop returns is what comes before the crossing. -/
theorem terms_of_getAllFrom {f : Frames} :
    ∀ (fuel : Nat) {frame : Int} {l : List Int} {n : Nat}, f.getAllFrom fuel frame = .ok l →
      Crosses frame f.step f.last n → l = terms frame f.step n := by
  intro fuel
  induction fuel with
  | zero => intro frame l n h; exact absurd h (by simp [getAllFrom])
  | succ fuel ih =>
      intro frame l n h hcross
      rw [getAllFrom_succ] at h
      by_cases hdone : f.isDone frame = true
      · rw [if_pos hdone, Outcome.ok.injEq] at h
        rw [hcross.unique (crosses_zero.mpr ((isDone_iff f frame).mp hdone)), ← h]
        rfl
      · rw [if_neg hdone] at h
        by_cases hnext : FitsInt (frame + f.step)
        · rw [if_pos hnext] at h
          obtain ⟨rest, hrest, hl⟩ := Outcome.bind_eq_ok.mp h
          cases n with
          | zero => exact absurd ((isDone_iff f frame).mpr (crosses_zero.mp hcross)) hdone
          | succ n =>
              rw [terms_succ, ← ih hrest (crosses_succ.mp hcross).2]
              exact (Outcome.ok.inj hl).symm
        · rw [if_neg hnext] at h
          exact absurd h (by simp)

/-- **The frames are the terms that are not past the last one, each once.** -/
theorem mem_of_getAll {f : Frames} {fuel : Nat} {frames : List Int}
    (h : f.getAll fuel = .ok frames) : frames.Nodup ∧
      ∀ x, x ∈ frames ↔ ∃ k : Nat, x = term f.first f.step k ∧ ¬ Past f.step f.last x := by
  obtain ⟨n, hcross, -⟩ := crosses_of_getAllFrom fuel h
  have hterms := terms_of_getAllFrom fuel h hcross
  by_cases hstep : f.step = 0
  · -- then the first frame is past the last one
    have hpast : Past f.step f.last f.first := by
      by_contra hshort
      rw [hstep] at hcross hshort
      exact not_crosses_zero_step hshort n hcross
    rw [hcross.unique (crosses_zero.mpr hpast), terms_zero] at hterms
    rw [hterms]
    refine ⟨List.nodup_nil, fun x => ⟨fun hx => absurd hx List.not_mem_nil, ?_⟩⟩
    rintro ⟨k, rfl, hshort⟩
    refine absurd ?_ hshort
    rw [hstep, term, nsmul_zero, add_zero, ← hstep]
    exact hpast
  · rw [hterms]
    refine ⟨nodup_terms hstep n, fun x => ?_⟩
    simp only [terms, List.mem_map, List.mem_range]
    constructor
    · rintro ⟨k, hk, rfl⟩
      exact ⟨k, rfl, (hcross.lt_iff hstep k).mp hk⟩
    · rintro ⟨k, rfl, hshort⟩
      exact ⟨k, (hcross.lt_iff hstep k).mpr hshort, rfl⟩

/--
**`get_all` enumerates the progression.**  Where the step is not zero and every term up to
the first one past the last frame is an `int`, its loop ends and the list is that part of
the progression; if the specification leaves the step out, from FIRST to LAST.
-/
theorem getAll_enumerates (f : Frames) (hstep : f.step ≠ 0)
    (hfits : ∀ k : Nat, (∀ j : Nat, j < k → ¬ Past f.step f.last (f.first + j * f.step)) →
      FitsInt (f.first + k * f.step)) :
    ∃ (turns : Nat) (frames : List Int),
      (∀ fuel, turns < fuel → f.getAll fuel = .ok frames) ∧ f.Enumerates frames ∧
      ∀ (spec : Bytes) (numbers : List Int), parse spec = .ok f →
        Specification (cStr spec) numbers → numbers.length < 3 →
        EndToEnd f.first f.last frames ∧
          ((∀ n ∈ numbers, FitsInt n) →
            numbers.head? = some f.first ∧ numbers.getLast? = some f.last) := by
  have hterm : ∀ k : Nat, term f.first f.step k = f.first + k * f.step := fun k => by
    rw [term, nsmul_eq_mul]
  obtain ⟨n, hcross⟩ : ∃ n, Crosses f.first f.step f.last n := exists_crosses hstep
  have hints : ∀ k, k < n → FitsInt (term f.first f.step (k + 1)) := by
    intro k hk
    rw [hterm]
    refine hfits (k + 1) ?_
    intro j hj
    rw [← hterm]
    exact hcross.short j (by omega)
  refine ⟨n, terms f.first f.step n, getAllFrom_of_crosses n hcross hints,
    enumerates_of_crosses hcross hstep, ?_⟩
  intro spec numbers hparse hnumbers hshort
  obtain ⟨hunit, hnamed⟩ := step_of_parse hparse hnumbers hshort
  exact ⟨endToEnd_of_crosses hcross hunit, hnamed⟩

theorem getAll_enumerates_down :
    ∃ (turns : Nat) (frames : List Int),
      (∀ fuel, turns < fuel → (⟨3, 1, -1⟩ : Frames).getAll fuel = .ok frames) ∧
      (⟨3, 1, -1⟩ : Frames).Enumerates frames ∧
      ∀ (spec : Bytes) (numbers : List Int), parse spec = .ok ⟨3, 1, -1⟩ →
        Specification (cStr spec) numbers → numbers.length < 3 →
        EndToEnd 3 1 frames ∧ ((∀ n ∈ numbers, FitsInt n) →
          numbers.head? = some 3 ∧ numbers.getLast? = some 1) := by
  refine getAll_enumerates ⟨3, 1, -1⟩ (by decide) ?_
  intro k hk
  have hle : k ≤ 3 := by
    by_contra hgt
    exact hk 3 (by omega) (by decide)
  unfold FitsInt
  show -2 ^ 31 ≤ (3 : Int) + k * -1 ∧ (3 : Int) + k * -1 < 2 ^ 31
  omega

end Frames

end Distray
