/-
Runs of digits, and the numbers they stand for.

A scan takes a run of bytes of one kind and stops at the first of another; the digits
of a number are such a run, and `decimal` is its value.  Printing a number and reading
it back gives the number, with zeros in front or without, and a larger number is never
printed in fewer digits.

These are the facts that the endpoints, the ranges and the parameters have in common.  None
of them knows what the number is for.
-/
import Distray.Frames
import Mathlib.Data.List.TakeWhile
import Mathlib.Tactic.Ring

namespace Distray

/-! ### Strings and runs -/

theorem cStr_of_noNul {s : Bytes} (h : 0 ∉ s) : cStr s = s := by
  apply List.takeWhile_eq_self_iff.mpr
  intro c hc
  have hne : c ≠ 0 := fun hzero => h (hzero ▸ hc)
  simpa using hne

theorem noNul_drop {s : Bytes} (h : 0 ∉ s) (n : Nat) : 0 ∉ s.drop n :=
  fun hmem => h (List.mem_of_mem_drop hmem)

/-- What follows a run: the end, or a byte that is not of its kind. -/
def Ends (f : UInt8 → Bool) (rest : Bytes) : Prop := ∀ c, rest[0]? = some c → f c = false

theorem ends_nil (f : UInt8 → Bool) : Ends f [] := fun c h => absurd h (by simp)

theorem ends_cons {f : UInt8 → Bool} {c : UInt8} (h : f c = false) (rest : Bytes) :
    Ends f (c :: rest) := by
  intro c' hc'
  rw [List.getElem?_cons_zero, Option.some.injEq] at hc'
  exact hc' ▸ h

theorem ends_dropWhile (f : UInt8 → Bool) (s : Bytes) : Ends f (s.dropWhile f) := by
  intro c hc
  induction s with
  | nil => exact absurd hc (by simp)
  | cons a s ih =>
      by_cases ha : f a = true
      · rw [List.dropWhile_cons_of_pos ha] at hc
        exact ih hc
      · rw [List.dropWhile_cons_of_neg ha, List.getElem?_cons_zero, Option.some.injEq] at hc
        subst hc
        simpa using ha

theorem takeWhile_run {f : UInt8 → Bool} {run rest : Bytes} (hrun : ∀ c ∈ run, f c = true)
    (hrest : Ends f rest) : (run ++ rest).takeWhile f = run := by
  rw [List.takeWhile_append_of_pos hrun]
  cases rest with
  | nil => exact List.append_nil run
  | cons c rest =>
      have hc := hrest c rfl
      rw [List.takeWhile_cons_of_neg (by simp [hc]), List.append_nil]

theorem dropWhile_run {f : UInt8 → Bool} {run rest : Bytes} (hrun : ∀ c ∈ run, f c = true)
    (hrest : Ends f rest) : (run ++ rest).dropWhile f = rest := by
  rw [List.dropWhile_append_of_pos hrun]
  cases rest with
  | nil => rfl
  | cons c rest =>
      have hc := hrest c rfl
      rw [List.dropWhile_cons_of_neg (by simp [hc])]

/-! ### The value of a run of digits

The value is computed from the left, ten times what there is and one more digit.  What is
proved about it is what is needed to go back: the digits of a number have that number as
their value, and zeros in front do not change it.
-/

theorem isDigit_toUInt8 {d : Char} (h : d.isDigit = true) : isDigit d.toUInt8 = true := by
  simp only [Char.isDigit, Bool.and_eq_true, decide_eq_true_eq] at h
  have hlow : 48 ≤ d.val.toNat := by simpa [UInt32.le_iff_toNat_le] using h.1
  have hhigh : d.val.toNat ≤ 57 := by simpa [UInt32.le_iff_toNat_le] using h.2
  have hbyte : d.toUInt8.toNat = d.val.toNat % 2 ^ 8 := UInt32.toNat_toUInt8 _
  simp only [isDigit, Bool.and_eq_true, decide_eq_true_eq, UInt8.le_iff_toNat_le, hbyte]
  show 48 ≤ _ ∧ _ ≤ 57
  omega

theorem ne_of_isDigit {c d : UInt8} (h : isDigit c = true) (hd : isDigit d = false) : c ≠ d := by
  rintro rfl
  rw [h] at hd
  exact absurd hd (by simp)

theorem decimal_foldl (s : Bytes) : ∀ n : Nat,
    s.foldl (fun n c => n * 10 + (c.toNat - '0'.toUInt8.toNat)) n
      = n * 10 ^ s.length + decimal s := by
  unfold decimal
  induction s with
  | nil => intro n; simp
  | cons c s ih =>
      intro n
      rw [List.foldl_cons, List.foldl_cons, ih, ih (0 * 10 + _), List.length_cons, pow_succ]
      ring

theorem decimal_append (s t : Bytes) :
    decimal (s ++ t) = decimal s * 10 ^ t.length + decimal t := by
  unfold decimal
  rw [List.foldl_append]
  exact decimal_foldl t _

theorem decimal_lt {s : Bytes} (h : ∀ c ∈ s, isDigit c = true) : decimal s < 10 ^ s.length := by
  induction s with
  | nil => exact Nat.one_pos
  | cons c s ih =>
      have htail := ih fun c hc => h c (List.mem_cons_of_mem _ hc)
      have hdigit := h c (by simp)
      simp only [isDigit, Bool.and_eq_true, decide_eq_true_eq, UInt8.le_iff_toNat_le] at hdigit
      have hhead : c.toNat - '0'.toUInt8.toNat ≤ 9 := by
        have hhigh : c.toNat ≤ 57 := hdigit.2
        show c.toNat - 48 ≤ 9
        omega
      have hmul := Nat.mul_le_mul_right (10 ^ s.length) hhead
      rw [← List.singleton_append, decimal_append, List.length_append, List.length_singleton,
        pow_add, pow_one]
      have hone : decimal [c] = c.toNat - '0'.toUInt8.toNat := by
        show 0 * 10 + _ = _
        omega
      rw [hone]
      omega

theorem decimal_zeros (n : Nat) (s : Bytes) :
    decimal (List.replicate n '0'.toUInt8 ++ s) = decimal s := by
  induction n with
  | zero => rfl
  | succ n ih =>
      rw [List.replicate_succ, List.cons_append]
      exact ih

/-- The digits of a number, as a stream prints them. -/
def digitsOf (n : Nat) : Bytes := (Nat.toDigits 10 n).map Char.toUInt8

theorem isDigit_digitsOf (n : Nat) : ∀ c ∈ digitsOf n, isDigit c = true := by
  intro c hc
  obtain ⟨d, hd, rfl⟩ := List.mem_map.mp hc
  exact isDigit_toUInt8 (Nat.isDigit_of_mem_toDigits (by decide) (by decide) hd)

theorem digitsOf_ne_nil (n : Nat) : digitsOf n ≠ [] := by
  unfold digitsOf
  rw [ne_eq, List.map_eq_nil_iff]
  exact Nat.toDigits_ne_nil

/-- **A number that was printed is read back.** -/
theorem decimal_digitsOf (n : Nat) : decimal (digitsOf n) = n := by
  have hchars : ∀ (l : List Char), (∀ d ∈ l, d.isDigit = true) → ∀ m : Nat,
      (l.map Char.toUInt8).foldl (fun n c => n * 10 + (c.toNat - '0'.toUInt8.toNat)) m
        = Nat.ofDigitChars 10 l m := by
    intro l
    induction l with
    | nil => intro _ m; rfl
    | cons d l ih =>
        intro hl m
        have hdigit := hl d (by simp)
        simp only [Char.isDigit, Bool.and_eq_true, decide_eq_true_eq] at hdigit
        have hhigh : d.val.toNat ≤ 57 := by simpa [UInt32.le_iff_toNat_le] using hdigit.2
        have hbyte : d.toUInt8.toNat = d.toNat := by
          have hmod : d.toUInt8.toNat = d.val.toNat % 2 ^ 8 := UInt32.toNat_toUInt8 _
          rw [hmod]
          exact Nat.mod_eq_of_lt (by omega)
        rw [List.map_cons, List.foldl_cons, Nat.ofDigitChars_cons, hbyte, mul_comm m 10]
        exact ih (fun d hd => hl d (List.mem_cons_of_mem _ hd)) _
  have hall : ∀ d ∈ Nat.toDigits 10 n, d.isDigit = true := fun d hd =>
    Nat.isDigit_of_mem_toDigits (by decide) (by decide) hd
  exact (hchars _ hall 0).trans Nat.ofDigitChars_ten_toDigits

theorem length_digitsOf_le {m n : Nat} (h : m ≤ n) :
    (digitsOf m).length ≤ (digitsOf n).length := by
  unfold digitsOf
  rw [List.length_map, List.length_map]
  rw [Nat.length_toDigits_le_iff (by decide) Nat.length_toDigits_pos]
  exact h.trans_lt ((Nat.length_toDigits_le_iff (by decide) Nat.length_toDigits_pos).mp le_rfl)

/-! ### Padded with zeros -/

theorem padded_eq (value : Nat) (width : Int) : padded value width =
    List.replicate (width.toNat - (digitsOf value).length) '0'.toUInt8 ++ digitsOf value := by
  unfold padded
  simp only
  by_cases hwidth : width = 0
  · rw [if_pos hwidth, hwidth]
    simp [digitsOf]
  · rw [if_neg hwidth]
    rfl

theorem isDigit_padded (value : Nat) (width : Int) :
    ∀ c ∈ padded value width, isDigit c = true := by
  intro c hc
  rw [padded_eq] at hc
  rcases List.mem_append.mp hc with hc | hc
  · rw [List.eq_of_mem_replicate hc]
    decide
  · exact isDigit_digitsOf value c hc

theorem padded_ne_nil (value : Nat) (width : Int) : padded value width ≠ [] := by
  rw [padded_eq]
  exact List.append_ne_nil_of_right_ne_nil _ (digitsOf_ne_nil value)

theorem decimal_padded (value : Nat) (width : Int) : decimal (padded value width) = value := by
  rw [padded_eq, decimal_zeros, decimal_digitsOf]

theorem length_padded_le {m n : Nat} (h : m ≤ n) (width : Int) :
    (padded m width).length ≤ (padded n width).length := by
  have hdigits := length_digitsOf_le h
  rw [padded_eq, padded_eq]
  simp only [List.length_append, List.length_replicate]
  omega

end Distray
