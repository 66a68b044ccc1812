/-
The scan for parameters.

A parameter is `%d`, or `%0`, digits and `d`.  The scan stops at every `%`, reads on as
long as what follows can be a parameter, and goes on from where it could not be any more.
`scan` is that loop without fuel, and `First` is what it has to find: the first position,
from where it starts, at which a parameter stands.  What it reads in vain are digits, so
no parameter begins in there.

The width is computed while the digits are read, in an `int` that may overflow.  Results
about the width ask for the digits to fit, and in a string of at most nine bytes they do.
-/
import Distray.Lib.Occurrences
import Distray.Proofs.Digits

namespace Distray

open Occurrences

/-! ### Parameters

A parameter begins with a `%` and has no other, so two of them never overlap, and where one
stands nothing else does.  That is what it takes to cut a string at them.
-/

/-- `%d`, or `%0` with more digits and a `d`; and the width that the digits say. -/
inductive IsParameter : Bytes → Nat → Prop
  | plain : IsParameter (bytes "%d") 0
  | wide {digits : Bytes} (hdigits : ∀ c ∈ digits, isDigit c = true) :
      IsParameter (bytes "%0" ++ digits ++ bytes "d") (decimal digits)

/-- Either way a run of digits, which has to begin with a zero. -/
theorem isParameter_iff {w : Bytes} {n : Nat} : IsParameter w n ↔
    ∃ digits : Bytes, w = '%'.toUInt8 :: (digits ++ ['d'.toUInt8]) ∧
      (∀ c ∈ digits, isDigit c = true) ∧ (∀ c, digits[0]? = some c → c = '0'.toUInt8) ∧
      n = decimal digits := by
  constructor
  · rintro (_ | ⟨hdigits⟩)
    · exact ⟨[], rfl, by simp, by simp, rfl⟩
    · rename_i digits
      refine ⟨'0'.toUInt8 :: digits, rfl, ?_, ?_, ?_⟩
      · intro c hc
        rcases List.mem_cons.mp hc with rfl | hc
        · decide
        · exact hdigits c hc
      · intro c hc
        rw [List.getElem?_cons_zero, Option.some.injEq] at hc
        exact hc.symm
      · exact (decimal_zeros 1 digits).symm
  · rintro ⟨digits, rfl, hdigits, hzero, rfl⟩
    cases digits with
    | nil => exact .plain
    | cons c digits =>
        obtain rfl := hzero c rfl
        have hdecimal : decimal ('0'.toUInt8 :: digits) = decimal digits := decimal_zeros 1 digits
        rw [hdecimal]
        exact .wide fun c hc => hdigits c (List.mem_cons_of_mem _ hc)

theorem isDigit_percent : isDigit '%'.toUInt8 = false := by decide

theorem isDigit_d : isDigit 'd'.toUInt8 = false := by decide

theorem takeWhile_parameter {digits s : Bytes} (hdigits : ∀ c ∈ digits, isDigit c = true)
    (h : '%'.toUInt8 :: (digits ++ ['d'.toUInt8]) <+: s) :
    (s.drop 1).takeWhile isDigit = digits ∧ (s.drop 1)[digits.length]? = some 'd'.toUInt8 := by
  obtain ⟨rest, rfl⟩ := h
  have htext : ('%'.toUInt8 :: (digits ++ ['d'.toUInt8]) ++ rest).drop 1
      = digits ++ 'd'.toUInt8 :: rest := by simp
  rw [htext]
  exact ⟨takeWhile_run hdigits (ends_cons isDigit_d rest), by simp⟩

/-- **Parameters begin with a `%`, have no other, and do not begin one another.** -/
theorem marked_isParameter : Marked IsParameter '%'.toUInt8 where
  head := by
    intro w n hw
    obtain ⟨digits, rfl, hdigits, -, -⟩ := isParameter_iff.mp hw
    refine ⟨_, rfl, ?_⟩
    intro hmem
    rcases List.mem_append.mp hmem with hmem | hmem
    · exact ne_of_isDigit (hdigits _ hmem) isDigit_percent rfl
    · exact absurd (List.mem_singleton.mp hmem) (by decide)
  unique := by
    intro w w' n n' s hw hw' hpre hpre'
    obtain ⟨digits, rfl, hdigits, -, rfl⟩ := isParameter_iff.mp hw
    obtain ⟨digits', rfl, hdigits', -, rfl⟩ := isParameter_iff.mp hw'
    have hrun := (takeWhile_parameter hdigits hpre).1
    rw [(takeWhile_parameter hdigits' hpre').1] at hrun
    rw [hrun]
    exact ⟨rfl, rfl⟩

/-! ### One position -/

/-- The digits from a position on. -/
def digitsAt (s : Bytes) (p : Nat) : Bytes := (s.drop p).takeWhile isDigit

/-- What `find_parameter` requires of what comes after a `%`. -/
theorem occurs_iff {s : Bytes} {i : Nat} (hi : s[i]? = some '%'.toUInt8) {w : Bytes} {n : Nat} :
    Occurs IsParameter s i w n ↔
      (s[i + 1]? = some '0'.toUInt8 ∨ s[i + 1]? = some 'd'.toUInt8) ∧
        s[i + 1 + (digitsAt s (i + 1)).length]? = some 'd'.toUInt8 ∧
        w = '%'.toUInt8 :: (digitsAt s (i + 1) ++ ['d'.toUInt8]) ∧
        n = decimal (digitsAt s (i + 1)) := by
  have hrun : digitsAt s (i + 1) ++ (s.drop (i + 1)).dropWhile isDigit = s.drop (i + 1) :=
    List.takeWhile_append_dropWhile
  constructor
  · rintro ⟨hword, hhere⟩
    obtain ⟨digits, rfl, hdigits, hzero, rfl⟩ := isParameter_iff.mp hword
    obtain ⟨htake, hd⟩ := takeWhile_parameter hdigits hhere
    rw [List.drop_drop] at htake hd
    rw [List.getElem?_drop] at hd
    have hsame : digitsAt s (i + 1) = digits := htake
    rw [hsame]
    refine ⟨?_, hd, rfl, rfl⟩
    cases digits with
    | nil => exact Or.inr hd
    | cons c digits =>
        obtain rfl := hzero c rfl
        have hfirst : (s.drop (i + 1))[0]? = some '0'.toUInt8 := by
          rw [← hrun, hsame]
          rfl
        rw [List.getElem?_drop] at hfirst
        exact Or.inl hfirst
  · rintro ⟨hstart, hd, rfl, rfl⟩
    have hdigits : ∀ c ∈ digitsAt s (i + 1), isDigit c = true :=
      fun c hc => List.mem_takeWhile_imp hc
    rw [← List.getElem?_drop] at hd
    have hrest : ∃ rest, (s.drop (i + 1)).dropWhile isDigit = 'd'.toUInt8 :: rest := by
      rw [← hrun, List.getElem?_append_right (Nat.le_refl _), Nat.sub_self] at hd
      cases hdrop : (s.drop (i + 1)).dropWhile isDigit with
      | nil => rw [hdrop] at hd; exact absurd hd (by simp)
      | cons c rest =>
          rw [hdrop, List.getElem?_cons_zero, Option.some.injEq] at hd
          exact ⟨rest, by rw [hd]⟩
    obtain ⟨rest, hrest⟩ := hrest
    constructor
    · refine isParameter_iff.mpr ⟨_, rfl, hdigits, ?_, rfl⟩
      intro c hc
      have hfirst : s[i + 1]? = some c := by
        have hget : (s.drop (i + 1))[0]? = some c := by
          rw [← hrun, List.getElem?_append_left (List.getElem?_eq_some_iff.mp hc).1]
          exact hc
        rwa [List.getElem?_drop] at hget
      rw [hfirst, Option.some.injEq, Option.some.injEq] at hstart
      rcases hstart with hzero | hletter
      · exact hzero
      · -- a digit is not a `d`
        exact absurd hletter (ne_of_isDigit (hdigits c (List.mem_of_getElem? hc)) isDigit_d)
    · obtain ⟨hlt, hpercent⟩ := List.getElem?_eq_some_iff.mp hi
      refine ⟨rest, ?_⟩
      rw [List.drop_eq_getElem_cons hlt, hpercent, ← hrun, hrest]
      simp

theorem not_occurs_of_ne {s : Bytes} {i : Nat} (hi : s[i]? ≠ some '%'.toUInt8) (w : Bytes)
    (n : Nat) : ¬ Occurs IsParameter s i w n :=
  fun h => hi (h.getElem? marked_isParameter)

theorem not_occurs_digits {s : Bytes} {p i : Nat} (hlow : p ≤ i)
    (hhigh : i < p + (digitsAt s p).length) (w : Bytes) (n : Nat) :
    ¬ Occurs IsParameter s i w n := by
  apply not_occurs_of_ne
  intro hpercent
  obtain ⟨k, rfl⟩ := Nat.exists_eq_add_of_le hlow
  have hrun : digitsAt s p ++ (s.drop p).dropWhile isDigit = s.drop p :=
    List.takeWhile_append_dropWhile
  rw [← List.getElem?_drop, ← hrun, List.getElem?_append_left (by omega)] at hpercent
  have hdigit : isDigit '%'.toUInt8 = true :=
    List.mem_takeWhile_imp (List.mem_of_getElem? hpercent)
  exact absurd hdigit (by decide)

/-! ### The loop -/

/-- The width as `find_parameter` accumulates it, in an `int`. -/
def widthOf (digits : Bytes) : Int :=
  digits.foldl (fun w c => wrapInt (w * 10 + (c.toNat - '0'.toUInt8.toNat : Nat))) 0

theorem lt_of_findIdx? {s : Bytes} {p k : Nat} {f : UInt8 → Bool}
    (h : (s.drop p).findIdx? f = some k) : p + k < s.length := by
  obtain ⟨hlt, -⟩ := List.findIdx?_eq_some_iff_getElem.mp h
  rw [List.length_drop] at hlt
  omega

/--
The loop of `find_parameter` without fuel.  It ends because what is left of the string
gets shorter.
-/
def scan (s : Bytes) (p : Nat) : Option Parameter :=
  match h : (s.drop p).findIdx? (· = '%'.toUInt8) with
  | none => none
  | some k =>
      have := lt_of_findIdx? h
      if s[p + k + 1]? = some '0'.toUInt8 ∨ s[p + k + 1]? = some 'd'.toUInt8 then
        let digits := digitsAt s (p + k + 1)
        if s[p + k + 1 + digits.length]? = some 'd'.toUInt8 then
          some ⟨p + k, p + k + 1 + digits.length + 1, widthOf digits⟩
        else scan s (p + k + 1 + digits.length)
      else scan s (p + k + 1)
termination_by s.length - p

theorem scan_none {s : Bytes} {p : Nat} (h : (s.drop p).findIdx? (· = '%'.toUInt8) = none) :
    scan s p = none := by
  rw [scan]
  split
  · rfl
  · rename_i k hk
    rw [h] at hk
    exact absurd hk (by simp)

theorem scan_some {s : Bytes} {p k : Nat}
    (h : (s.drop p).findIdx? (· = '%'.toUInt8) = some k) :
    scan s p =
      if s[p + k + 1]? = some '0'.toUInt8 ∨ s[p + k + 1]? = some 'd'.toUInt8 then
        if s[p + k + 1 + (digitsAt s (p + k + 1)).length]? = some 'd'.toUInt8 then
          some ⟨p + k, p + k + 1 + (digitsAt s (p + k + 1)).length + 1,
            widthOf (digitsAt s (p + k + 1))⟩
        else scan s (p + k + 1 + (digitsAt s (p + k + 1)).length)
      else scan s (p + k + 1) := by
  rw [scan]
  split
  · rename_i hk
    rw [h] at hk
    exact absurd hk (by simp)
  · rename_i k' hk
    rw [h, Option.some.injEq] at hk
    rw [hk]

theorem findParameterFrom_eq_scan (s : Bytes) : ∀ (fuel p : Nat), s.length < p + fuel →
    findParameterFrom fuel s p = scan s p := by
  intro fuel
  induction fuel with
  | zero =>
      intro p h
      rw [scan_none]
      · rfl
      · rw [List.drop_eq_nil_of_le (by omega)]
        rfl
  | succ fuel ih =>
      intro p h
      rw [findParameterFrom]
      cases hk : (s.drop p).findIdx? (· = '%'.toUInt8) with
      | none => exact (scan_none hk).symm
      | some k =>
          rw [scan_some hk, ← ih (p + k + 1) (by omega),
            ← ih (p + k + 1 + (digitsAt s (p + k + 1)).length) (by omega)]
          rfl

/-! ### What the loop finds

The scan does not go back.  After a `%` that begins no parameter it goes on behind the
digits it has read, and there it has missed nothing: a parameter begins with a `%`, and none
of the bytes it has read is one.
-/

/-- The first parameter at a position that is not before `p`. -/
inductive First (s : Bytes) (p : Nat) : Option Parameter → Prop
  | none (hnone : ∀ i w n, p ≤ i → ¬ Occurs IsParameter s i w n) : First s p none
  | some {q : Parameter} {digits : Bytes} (hlow : p ≤ q.first)
      (hbefore : ∀ i w n, p ≤ i → i < q.first → ¬ Occurs IsParameter s i w n)
      (hhere : Occurs IsParameter s q.first ('%'.toUInt8 :: (digits ++ ['d'.toUInt8]))
        (decimal digits))
      (hlast : q.first + ('%'.toUInt8 :: (digits ++ ['d'.toUInt8])).length = q.last)
      (hwidth : q.width = widthOf digits) : First s p (some q)

/-- A stretch in which no parameter begins can be skipped. -/
theorem First.skip {s : Bytes} {p p' : Nat} {r : Option Parameter} (h : First s p' r)
    (hle : p ≤ p') (hnone : ∀ i w n, p ≤ i → i < p' → ¬ Occurs IsParameter s i w n) :
    First s p r := by
  have hskip : ∀ {i w n}, p ≤ i → Occurs IsParameter s i w n → p' ≤ i := by
    intro i w n hlow hoccurs
    by_contra hlt
    exact hnone i w n hlow (by omega) hoccurs
  cases h with
  | none hafter => exact .none fun i w n hlow h => hafter i w n (hskip hlow h) h
  | some hlow hbefore hhere hlast hwidth =>
      exact .some (hle.trans hlow) (fun i w n hi hlt h => hbefore i w n (hskip hi h) hlt h)
        hhere hlast hwidth

theorem percent_of_findIdx? {s : Bytes} {p k : Nat}
    (h : (s.drop p).findIdx? (· = '%'.toUInt8) = some k) :
    s[p + k]? = some '%'.toUInt8 ∧ ∀ i, p ≤ i → i < p + k → s[i]? ≠ some '%'.toUInt8 := by
  obtain ⟨hlt, hpercent, hbefore⟩ := List.findIdx?_eq_some_iff_getElem.mp h
  constructor
  · rw [← List.getElem?_drop, List.getElem?_eq_getElem hlt]
    exact congrArg some (by simpa using hpercent)
  · intro i hlow hhigh hi
    obtain ⟨j, rfl⟩ := Nat.exists_eq_add_of_le hlow
    rw [← List.getElem?_drop] at hi
    obtain ⟨hj, hget⟩ := List.getElem?_eq_some_iff.mp hi
    exact hbefore j (by omega) (by simpa using hget)

/--
**The scan misses no parameter and finds none that is not there.**  At every `%` the text
after it decides, and what was read in vain is skipped: it has no `%`.
-/
theorem first_scan (s : Bytes) (p : Nat) : First s p (scan s p) := by
  induction hlen : s.length - p using Nat.strong_induction_on generalizing p with
  | _ n ih =>
      cases hk : (s.drop p).findIdx? (· = '%'.toUInt8) with
      | none =>
          rw [scan_none hk]
          refine .none fun i w n hlow => not_occurs_of_ne ?_ w n
          intro hpercent
          obtain ⟨j, rfl⟩ := Nat.exists_eq_add_of_le hlow
          rw [← List.getElem?_drop] at hpercent
          have hnot := List.findIdx?_eq_none_iff.mp hk _ (List.mem_of_getElem? hpercent)
          exact absurd hnot (by simp)
      | some k =>
          obtain ⟨hpercent, hbefore⟩ := percent_of_findIdx? hk
          have hlt := lt_of_findIdx? hk
          have hskip : ∀ i w n, p ≤ i → i < p + k → ¬ Occurs IsParameter s i w n :=
            fun i w n hlow hhigh => not_occurs_of_ne (hbefore i hlow hhigh) w n
          rw [scan_some hk]
          by_cases hstart : s[p + k + 1]? = some '0'.toUInt8 ∨ s[p + k + 1]? = some 'd'.toUInt8
          · rw [if_pos hstart]
            by_cases hd : s[p + k + 1 + (digitsAt s (p + k + 1)).length]? = some 'd'.toUInt8
            · rw [if_pos hd]
              have hhere := (occurs_iff hpercent).mpr ⟨hstart, hd, rfl, rfl⟩
              refine .some (Nat.le_add_right p k) hskip hhere ?_ rfl
              simp only [List.length_cons, List.length_append, List.length_nil]
              omega
            · rw [if_neg hd]
              refine (ih _ (by omega) _ rfl).skip (by omega) fun i w n hlow hhigh h => ?_
              rcases Nat.lt_trichotomy i (p + k) with hi | rfl | hi
              · exact hskip i w n hlow hi h
              · exact hd ((occurs_iff hpercent).mp h).2.1
              · exact not_occurs_digits hi hhigh w n h
          · rw [if_neg hstart]
            refine (ih _ (by omega) _ rfl).skip (by omega) fun i w n hlow hhigh h => ?_
            rcases Nat.lt_or_ge i (p + k) with hi | hi
            · exact hskip i w n hlow hi h
            · obtain rfl : i = p + k := by omega
              exact hstart ((occurs_iff hpercent).mp h).1

theorem first_findParameter {s : Bytes} (hs : 0 ∉ s) : First s 0 (findParameter s) := by
  unfold findParameter
  rw [cStr_of_noNul hs, findParameterFrom_eq_scan s _ 0 (by omega)]
  exact first_scan s 0

/-- **A string has a parameter if and only if one occurs in it.** -/
theorem stringHasParameter_iff {s : Bytes} (hs : 0 ∉ s) :
    stringHasParameter s = true ↔ ∃ i w n, Occurs IsParameter s i w n := by
  unfold stringHasParameter
  have hfirst := first_findParameter hs
  cases hq : findParameter s with
  | none =>
      rw [hq] at hfirst
      cases hfirst with
      | none hnone =>
          refine iff_of_false (by simp) ?_
          rintro ⟨i, w, n, hoccurs⟩
          exact hnone i w n (Nat.zero_le i) hoccurs
  | some q =>
      rw [hq] at hfirst
      cases hfirst with
      | some _ _ hhere => exact iff_of_true rfl ⟨_, _, _, hhere⟩

/-! ### The width -/

/-- A run of digits that fits an `int` is accumulated in one without wrapping. -/
theorem widthOf_eq {digits : Bytes} (h : FitsInt (decimal digits)) :
    widthOf digits = decimal digits := by
  have hrun : ∀ (t : Bytes) (m : Nat),
      FitsInt (t.foldl (fun n c => n * 10 + (c.toNat - '0'.toUInt8.toNat)) m : Nat) →
      t.foldl (fun w c => wrapInt (w * 10 + (c.toNat - '0'.toUInt8.toNat : Nat))) (m : Int)
        = (t.foldl (fun n c => n * 10 + (c.toNat - '0'.toUInt8.toNat)) m : Nat) := by
    intro t
    induction t with
    | nil => intro m _; rfl
    | cons c t ih =>
        intro m hfits
        rw [List.foldl_cons] at hfits ⊢
        have hnext : FitsInt (m * 10 + (c.toNat - '0'.toUInt8.toNat : Nat) : Nat) := by
          obtain ⟨-, hhigh⟩ := hfits
          rw [decimal_foldl] at hhigh
          have hpow : 1 ≤ 10 ^ t.length := Nat.one_le_pow _ _ (by decide)
          have hle := Nat.le_mul_of_pos_right (m * 10 + (c.toNat - '0'.toUInt8.toNat)) hpow
          unfold FitsInt
          omega
        have hwrap := wrapInt_of_fits hnext
        push_cast at hwrap
        rw [List.foldl_cons, hwrap]
        exact ih _ hfits
  exact hrun digits 0 h

/-- All widths are representable in an `int`. -/
def WidthsFit (s : Bytes) : Prop := ∀ i w n, Occurs IsParameter s i w n → FitsInt n

theorem widthsFit_drop {s : Bytes} (h : WidthsFit s) (n : Nat) : WidthsFit (s.drop n) :=
  fun i w k hoccurs => h (n + i) w k ((occurs_drop n).mp hoccurs)

/-- There is no room for a large width in a short string. -/
theorem widthsFit_of_length_le {s : Bytes} (h : s.length ≤ 9) : WidthsFit s := by
  intro i w n hoccurs
  obtain ⟨digits, rfl, hdigits, -, rfl⟩ := isParameter_iff.mp hoccurs.word
  have hlen : digits.length ≤ 9 := by
    have hle := hoccurs.here.length_le
    rw [List.length_drop, List.length_cons, List.length_append] at hle
    omega
  have hlt := decimal_lt hdigits
  have hpow : 10 ^ digits.length ≤ 10 ^ 9 := Nat.pow_le_pow_right (by decide) hlen
  unfold FitsInt
  omega

end Distray
