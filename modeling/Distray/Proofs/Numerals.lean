/-
Numbers as `strtol` reads them.

`strtol` skips white space, takes a sign and then digits, and stops where they do.
`Numeral` is the language of what it takes, with the integer that is written; the
integer may be larger than a `long`, and `strtol` returns the nearest one.  So the
reading is in two parts: `readNumber` takes the text apart and gives the integer
written, and what `strtol` returns is that, clamped.

Which integer a text stands for can be read from its parts in one way only, so two readings
of one text agree, and a result about what was written does not depend on how it was found.
-/
import Distray.Proofs.Digits

namespace Distray

/-- A sign, and what it multiplies by. -/
inductive Sign : Bytes → Int → Prop
  | absent : Sign [] 1
  | plus : Sign (bytes "+") 1
  | minus : Sign (bytes "-") (-1)

/-- Optional white space, an optional sign and at least one digit; and the integer written. -/
inductive Numeral : Bytes → Int → Prop
  | intro {blank sign digits : Bytes} {factor : Int} (hblank : ∀ c ∈ blank, isSpace c = true)
      (hsign : Sign sign factor) (hne : digits ≠ []) (hdigits : ∀ c ∈ digits, isDigit c = true) :
      Numeral (blank ++ (sign ++ digits)) (factor * decimal digits)

theorem numeral_of_digits {digits : Bytes} (hne : digits ≠ [])
    (hdigits : ∀ c ∈ digits, isDigit c = true) : Numeral digits (decimal digits) := by
  have h := Numeral.intro (fun c h => absurd h List.not_mem_nil) .absent hne hdigits
  rwa [one_mul] at h

/-- The `long` nearest to an integer. -/
def clampLong (n : Int) : Int := max (-2 ^ 63) (min n (2 ^ 63 - 1))

/-- The sign at the front of a string, and what comes after it. -/
def takeSign (t : Bytes) : Int × Bytes :=
  if t[0]? = some '-'.toUInt8 then (-1, t.drop 1)
  else if t[0]? = some '+'.toUInt8 then (1, t.drop 1)
  else (1, t)

/-- The integer at the front of a string, and what comes after it. -/
def readNumber (s : Bytes) : Option (Int × Bytes) :=
  let (factor, t) := takeSign (s.dropWhile isSpace)
  let digits := t.takeWhile isDigit
  if digits = [] then none else some (factor * decimal digits, t.drop digits.length)

/-- `strtol` returns the nearest `long` to the integer it reads. -/
theorem strtol_eq (s : Bytes) :
    strtol s = (readNumber s).map fun (n, rest) => (clampLong n, rest) := by
  unfold strtol readNumber takeSign
  simp only
  generalize s.dropWhile isSpace = t
  by_cases hminus : t[0]? = some '-'.toUInt8
  · simp only [hminus, true_or, if_true]
    split
    · rfl
    · simp [clampLong]
  · by_cases hplus : t[0]? = some '+'.toUInt8
    · have hne : ¬ some '+'.toUInt8 = some '-'.toUInt8 := by decide
      simp only [hplus, hne, false_or, if_true, if_false]
      split
      · rfl
      · simp [clampLong]
    · simp only [hminus, hplus, or_self, if_false]
      split
      · rfl
      · simp [clampLong]

/-! ### Taking a number apart

White space, a sign and digits are kinds of bytes that do not overlap, so the three parts of
a number can be told apart wherever they stand together.  What comes after a number must not
go on with a digit, or it would be part of it.
-/

theorem not_isSpace_of_isDigit {c : UInt8} (h : isDigit c = true) : isSpace c = false := by
  simp only [isDigit, Bool.and_eq_true, decide_eq_true_eq, UInt8.le_iff_toNat_le] at h
  have hlow : 48 ≤ c.toNat := h.1
  simp only [isSpace, Bool.or_eq_false_iff, Bool.and_eq_false_iff, decide_eq_false_iff_not,
    UInt8.le_iff_toNat_le]
  refine ⟨?_, Or.inr ?_⟩
  · rintro rfl
    exact absurd hlow (by decide)
  · show ¬ c.toNat ≤ 13
    omega

theorem takeSign_append {sign digits : Bytes} {factor : Int} (hsign : Sign sign factor)
    (hne : digits ≠ []) (hdigits : ∀ c ∈ digits, isDigit c = true) (rest : Bytes) :
    takeSign (sign ++ (digits ++ rest)) = (factor, digits ++ rest) := by
  obtain ⟨d, digits, rfl⟩ := List.exists_cons_of_ne_nil hne
  have hd := hdigits d (by simp)
  cases hsign with
  | plus => rfl
  | minus => rfl
  | absent =>
      have hminus : d ≠ '-'.toUInt8 := ne_of_isDigit hd (by decide)
      have hplus : d ≠ '+'.toUInt8 := ne_of_isDigit hd (by decide)
      simp [takeSign, hminus, hplus]

theorem takeSign_spec (t : Bytes) :
    ∃ sign, Sign sign (takeSign t).1 ∧ t = sign ++ (takeSign t).2 := by
  unfold takeSign
  by_cases hminus : t[0]? = some '-'.toUInt8
  · rw [if_pos hminus]
    cases t with
    | nil => exact absurd hminus (by simp)
    | cons c t =>
        rw [List.getElem?_cons_zero, Option.some.injEq] at hminus
        exact ⟨bytes "-", .minus, by rw [hminus]; rfl⟩
  · rw [if_neg hminus]
    by_cases hplus : t[0]? = some '+'.toUInt8
    · rw [if_pos hplus]
      cases t with
      | nil => exact absurd hplus (by simp)
      | cons c t =>
          rw [List.getElem?_cons_zero, Option.some.injEq] at hplus
          exact ⟨bytes "+", .plus, by rw [hplus]; rfl⟩
    · rw [if_neg hplus]
      exact ⟨[], .absent, rfl⟩

/-- **A number that no digit follows is read whole.** -/
theorem readNumber_append {t rest : Bytes} {n : Int} (ht : Numeral t n)
    (hrest : Ends isDigit rest) : readNumber (t ++ rest) = some (n, rest) := by
  obtain ⟨hblank, hsign, hne, hdigits⟩ := ht
  rename_i blank sign digits factor
  have hends : Ends isSpace (sign ++ (digits ++ rest)) := by
    obtain ⟨d, digits, rfl⟩ := List.exists_cons_of_ne_nil hne
    cases hsign with
    | absent => exact ends_cons (not_isSpace_of_isDigit (hdigits d (by simp))) _
    | plus => exact ends_cons (by decide) _
    | minus => exact ends_cons (by decide) _
  have hskip : (blank ++ (sign ++ digits) ++ rest).dropWhile isSpace
      = sign ++ (digits ++ rest) := by
    rw [List.append_assoc, List.append_assoc]
    exact dropWhile_run hblank hends
  unfold readNumber
  rw [hskip, takeSign_append hsign hne hdigits]
  simp only [takeWhile_run hdigits hrest, if_neg hne, List.drop_left]

/-- **What is read is a number, and no digit follows it.** -/
theorem numeral_of_readNumber {s rest : Bytes} {n : Int} (h : readNumber s = some (n, rest)) :
    ∃ t, s = t ++ rest ∧ Numeral t n ∧ Ends isDigit rest := by
  unfold readNumber at h
  obtain ⟨sign, hsign, htext⟩ := takeSign_spec (s.dropWhile isSpace)
  generalize takeSign (s.dropWhile isSpace) = taken at h hsign htext
  obtain ⟨factor, t⟩ := taken
  simp only at h hsign htext
  split at h
  · exact absurd h (by simp)
  · rename_i hne
    simp only [Option.some.injEq, Prod.mk.injEq] at h
    obtain ⟨rfl, rfl⟩ := h
    have hdrop : t.drop (t.takeWhile isDigit).length = t.dropWhile isDigit := by
      conv_lhs => arg 2; rw [← List.takeWhile_append_dropWhile (p := isDigit) (l := t)]
      exact List.drop_left
    rw [hdrop]
    refine ⟨s.takeWhile isSpace ++ (sign ++ t.takeWhile isDigit), ?_, ?_, ends_dropWhile _ _⟩
    · rw [List.append_assoc, List.append_assoc, List.takeWhile_append_dropWhile, ← htext,
        List.takeWhile_append_dropWhile]
    · exact .intro (fun c hc => List.mem_takeWhile_imp hc) hsign hne
        fun c hc => List.mem_takeWhile_imp hc

theorem Numeral.unique {t : Bytes} {m n : Int} (h : Numeral t m) (h' : Numeral t n) : m = n := by
  have hread := readNumber_append h (ends_nil isDigit)
  rw [readNumber_append h' (ends_nil isDigit)] at hread
  exact (congrArg Prod.fst (Option.some.inj hread)).symm

/-! ### The bytes of a number -/

/-- No byte of a number is a separator: the end of a C string, a comma or a colon. -/
theorem Numeral.not_mem {t : Bytes} {n : Int} (h : Numeral t n) {c : UInt8}
    (hspace : isSpace c = false) (hplus : c ≠ '+'.toUInt8) (hminus : c ≠ '-'.toUInt8)
    (hdigit : isDigit c = false) : c ∉ t := by
  obtain ⟨hblank, hsign, -, hdigits⟩ := h
  intro hmem
  rcases List.mem_append.mp hmem with hmem | hmem
  · rw [hblank c hmem] at hspace
    exact absurd hspace (by simp)
  · rcases List.mem_append.mp hmem with hmem | hmem
    · cases hsign with
      | absent => exact absurd hmem List.not_mem_nil
      | plus => exact hplus (List.mem_singleton.mp hmem)
      | minus => exact hminus (List.mem_singleton.mp hmem)
    · rw [hdigits c hmem] at hdigit
      exact absurd hdigit (by simp)

end Distray
