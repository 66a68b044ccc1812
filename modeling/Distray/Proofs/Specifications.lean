/-
What `Frames::parse` accepts, and what it makes of it.

A specification is one, two or three numbers with commas between them, and the parser
takes exactly those: `Specification` is the language and `ofNumbers` the range that the
numbers stand for.  What it makes of a number is another matter, because a `long` is
put into an `int` on the way, so that a number which does not fit stands for another.

Numbers that fit are taken at face value.  Those that do not are not refused, and for them
there is another reading, in which each is replaced by what is left of it in 32 bits.
-/
import Distray.Proofs.Numerals

namespace Distray

namespace Frames

/-! ### The language

What may be written and what it stands for are two things, and both are said without the
parser: the numbers between the commas, and the range of one, two or three of them.
-/

/-- Numbers separated by single commas. -/
inductive Separated : Bytes → List Int → Prop
  | last {a : Bytes} {n : Int} (ha : Numeral a n) : Separated a [n]
  | more {a s : Bytes} {n : Int} {numbers : List Int} (ha : Numeral a n)
      (hs : Separated s numbers) : Separated (a ++ ','.toUInt8 :: s) (n :: numbers)

/-- One, two or three of them, and nothing else. -/
structure Specification (s : Bytes) (numbers : List Int) : Prop where
  separated : Separated s numbers
  count : numbers.length ≤ 3

/-- The range that the numbers stand for, where those that are absent have their defaults. -/
def ofNumbers (numbers : List Int) : Frames :=
  let first := numbers.getD 0 0
  let last := numbers.getD 1 first
  ⟨first, last, numbers.getD 2 (if first ≤ last then 1 else -1)⟩

/-- The string is a specification of the range, and all of its numbers are of type `int`. -/
def Documented (s : Bytes) (f : Frames) : Prop :=
  ∃ numbers, Specification s numbers ∧ (∀ n ∈ numbers, FitsInt n) ∧ f = ofNumbers numbers

/-! ### One number -/

/-- The `int` that is made of a number. -/
def toInt (n : Int) : Int := wrapInt (clampLong n)

theorem toInt_of_fits {n : Int} (h : FitsInt n) : toInt n = n := by
  obtain ⟨hlow, hhigh⟩ := h
  have hclamp : clampLong n = n := by
    unfold clampLong
    omega
  rw [toInt, hclamp, wrapInt_of_fits ⟨hlow, hhigh⟩]

theorem fitsInt_toInt (n : Int) : FitsInt (toInt n) := fitsInt_wrapInt _

theorem parseInt_append {t rest : Bytes} {n : Int} (ht : Numeral t n)
    (hrest : Ends isDigit rest) : parseInt (t ++ rest) = .ok (toInt n, rest) := by
  unfold parseInt
  rw [strtol_eq, readNumber_append ht hrest]
  rfl

theorem numeral_of_parseInt {s rest : Bytes} {v : Int} (h : parseInt s = .ok (v, rest)) :
    ∃ t n, s = t ++ rest ∧ Numeral t n ∧ Ends isDigit rest ∧ v = toInt n := by
  unfold parseInt at h
  rw [strtol_eq] at h
  cases hread : readNumber s with
  | none => rw [hread] at h; exact absurd h (by simp)
  | some taken =>
      obtain ⟨n, rest'⟩ := taken
      rw [hread] at h
      simp only [Option.map_some, Except.ok.injEq, Prod.mk.injEq] at h
      obtain ⟨rfl, rfl⟩ := h
      obtain ⟨t, htext, ht, hends⟩ := numeral_of_readNumber hread
      exact ⟨t, n, htext, ht, hends, rfl⟩

/-! ### The numbers -/

theorem ok_of_bind {α β : Type} {x : Except Bytes α} {f : α → Except Bytes β} {b : β}
    (h : (x >>= f) = .ok b) : ∃ a, x = .ok a ∧ f a = .ok b := by
  cases x with
  | error what => exact absurd h (by simp [bind, Except.bind])
  | ok a => exact ⟨a, rfl, h⟩

theorem ends_comma (rest : Bytes) : Ends isDigit (','.toUInt8 :: rest) := ends_cons (by decide) rest

theorem cons_drop_of_comma {s : Bytes} (h : s[0]? = some ','.toUInt8) :
    s = ','.toUInt8 :: s.drop 1 := by
  cases s with
  | nil => exact absurd h (by simp)
  | cons c s =>
      rw [List.getElem?_cons_zero, Option.some.injEq] at h
      rw [h]
      rfl

theorem parseNumbers_specification {s : Bytes} {numbers : List Int}
    (h : Specification s numbers) :
    parseNumbers s = .ok (ofNumbers (numbers.map toInt), []) := by
  have hlast : ∀ {t : Bytes} {n : Int}, Numeral t n → parseInt t = .ok (toInt n, []) := by
    intro t n ht
    have hread := parseInt_append ht (ends_nil isDigit)
    rwa [List.append_nil] at hread
  obtain ⟨hs, hcount⟩ := h
  unfold parseNumbers
  cases hs with
  | last ha => simp [hlast ha, bind, Except.bind, pure, Except.pure, ofNumbers]
  | more ha hs =>
      rw [parseInt_append ha (ends_comma _)]
      cases hs with
      | last hb => simp [hlast hb, bind, Except.bind, pure, Except.pure, ofNumbers]
      | more hb hs =>
          cases hs with
          | last hc =>
              simp [parseInt_append hb (ends_comma _), hlast hc, bind, Except.bind, pure,
                Except.pure, ofNumbers]
          | more _ hs =>
              -- there is no fourth number
              cases hs <;> simp only [List.length_cons] at hcount <;> omega

theorem specification_of_parseNumbers {s : Bytes} {f : Frames}
    (h : parseNumbers s = .ok (f, [])) :
    ∃ numbers, Specification s numbers ∧ f = ofNumbers (numbers.map toInt) := by
  unfold parseNumbers at h
  obtain ⟨⟨v, s₁⟩, hread, h⟩ := ok_of_bind h
  obtain ⟨a, first, rfl, ha, -, rfl⟩ := numeral_of_parseInt hread
  simp only at h
  split at h
  · rename_i hcomma
    rw [cons_drop_of_comma hcomma]
    generalize s₁.drop 1 = s₂ at h
    obtain ⟨⟨v, s₃⟩, hread, h⟩ := ok_of_bind h
    obtain ⟨b, last, rfl, hb, -, rfl⟩ := numeral_of_parseInt hread
    simp only at h
    split at h
    · rename_i hcomma
      rw [cons_drop_of_comma hcomma]
      generalize s₃.drop 1 = s₄ at h
      obtain ⟨⟨v, s₅⟩, hread, h⟩ := ok_of_bind h
      obtain ⟨c, step, rfl, hc, -, rfl⟩ := numeral_of_parseInt hread
      simp only [pure, Except.pure, Except.ok.injEq, Prod.mk.injEq] at h
      obtain ⟨rfl, rfl⟩ := h
      rw [List.append_nil]
      exact ⟨_, ⟨.more ha (.more hb (.last hc)), by simp⟩, rfl⟩
    · simp only [pure, Except.pure, Except.ok.injEq, Prod.mk.injEq] at h
      obtain ⟨rfl, rfl⟩ := h
      rw [List.append_nil]
      exact ⟨_, ⟨.more ha (.last hb), by simp⟩, rfl⟩
  · simp only [pure, Except.pure, Except.ok.injEq, Prod.mk.injEq] at h
    obtain ⟨rfl, rfl⟩ := h
    rw [List.append_nil]
    exact ⟨_, ⟨.last ha, by simp⟩, by simp [ofNumbers]⟩

/-- **What `parse` accepts**, and the range it makes of it. -/
theorem parse_eq_ok {s : Bytes} {f : Frames} :
    parse s = .ok f ↔
      ∃ numbers, Specification (cStr s) numbers ∧ f = ofNumbers (numbers.map toInt) := by
  unfold parse
  constructor
  · intro h
    split at h
    · exact absurd h (by simp)
    · rename_i frames rest hread
      split at h
      · exact absurd h (by simp)
      · rename_i hnil
        rw [Except.ok.injEq] at h
        subst h
        rw [not_not.mp hnil] at hread
        exact specification_of_parseNumbers hread
  · rintro ⟨numbers, hnumbers, rfl⟩
    rw [parseNumbers_specification hnumbers]
    rfl

/-! ### At face value -/

theorem map_toInt {numbers : List Int} (h : ∀ n ∈ numbers, FitsInt n) :
    numbers.map toInt = numbers := by
  conv_rhs => rw [← List.map_id numbers]
  exact List.map_congr_left fun n hn => toInt_of_fits (h n hn)

theorem Separated.noNul {s : Bytes} {numbers : List Int} (h : Separated s numbers) : 0 ∉ s := by
  have hnumeral : ∀ {t : Bytes} {n : Int}, Numeral t n → 0 ∉ t := fun ht =>
    ht.not_mem (by decide) (by decide) (by decide) (by decide)
  induction h with
  | last ha => exact hnumeral ha
  | more ha _ ih =>
      intro hmem
      rcases List.mem_append.mp hmem with hmem | hmem
      · exact hnumeral ha hmem
      · rcases List.mem_cons.mp hmem with hcomma | hmem
        · exact absurd hcomma (by decide)
        · exact ih hmem

theorem Separated.unique {s : Bytes} {numbers numbers' : List Int} (h : Separated s numbers)
    (h' : Separated s numbers') : numbers = numbers' := by
  induction h generalizing numbers' with
  | @last a n ha =>
      have hread := readNumber_append ha (ends_nil isDigit)
      rw [List.append_nil] at hread
      cases h' with
      | last hb => rw [ha.unique hb]
      | more hb hs =>
          rw [readNumber_append hb (ends_comma _)] at hread
          exact absurd hread (by simp)
  | @more a s n numbers ha hs ih =>
      have hread := readNumber_append ha (ends_comma s)
      generalize htext : a ++ ','.toUInt8 :: s = text at h' hread
      cases h' with
      | last hb =>
          have hread' := readNumber_append hb (ends_nil isDigit)
          rw [List.append_nil, hread] at hread'
          exact absurd hread' (by simp)
      | @more b s' n' numbers' hb hs' =>
          rw [readNumber_append hb (ends_comma _)] at hread
          simp only [Option.some.injEq, Prod.mk.injEq, List.cons.injEq, true_and] at hread
          obtain ⟨rfl, rfl⟩ := hread
          rw [ih hs']

/--
**The string is accepted for what is written in it if and only if nothing is cut off.**
A NUL cuts off what comes after it, and an `int` what it has no room for.
-/
theorem documented_iff (s : Bytes) :
    (∀ f, parse s = .ok f ↔ Documented s f) ↔
      ∀ numbers, Specification (cStr s) numbers → 0 ∉ s ∧ ∀ n ∈ numbers, FitsInt n := by
  constructor
  · intro h numbers hnumbers
    have haccepted : parse s = .ok (ofNumbers (numbers.map toInt)) :=
      parse_eq_ok.mpr ⟨numbers, hnumbers, rfl⟩
    obtain ⟨numbers', hnumbers', hfits, -⟩ := (h _).mp haccepted
    have hnul := hnumbers'.separated.noNul
    rw [cStr_of_noNul hnul] at hnumbers
    rw [hnumbers.separated.unique hnumbers'.separated]
    exact ⟨hnul, hfits⟩
  · intro hwhole f
    rw [parse_eq_ok]
    constructor
    · rintro ⟨numbers, hnumbers, rfl⟩
      obtain ⟨hnul, hfits⟩ := hwhole numbers hnumbers
      rw [cStr_of_noNul hnul] at hnumbers
      exact ⟨numbers, hnumbers, hfits, by rw [map_toInt hfits]⟩
    · rintro ⟨numbers, hnumbers, hfits, rfl⟩
      refine ⟨numbers, ?_, by rw [map_toInt hfits]⟩
      rw [cStr_of_noNul hnumbers.separated.noNul]
      exact hnumbers

/-- The number after the largest that 32 bits can tell apart is taken for 1. -/
theorem not_documented_of_truncated :
    ¬ ∀ (s : Bytes) (f : Frames), parse s = .ok f ↔ Documented s f := by
  intro h
  have haccepted : parse (bytes "4294967297") = .ok ⟨1, 1, 1⟩ := by decide
  obtain ⟨numbers, hnumbers, hfits, -⟩ := (h _ _).mp haccepted
  have hdigits : Numeral (bytes "4294967297") 4294967297 :=
    numeral_of_digits (by decide) (List.all_eq_true.mp (by decide))
  have hsame := (Separated.last hdigits).unique hnumbers.separated
  have hfit := hfits 4294967297 (by simp [← hsame])
  exact absurd hfit (by decide)

end Frames

end Distray
