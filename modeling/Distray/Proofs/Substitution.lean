/-
What `substitute_parameter` returns.

The string is cut at its parameters, which do not overlap, and every one of them is replaced
by the value in decimal, padded with zeros to its width.  Where the string is cut does not
depend on the value.  So two values give two results: of two numbers the larger is never
written in fewer digits, so no piece can make up for what another is longer.

A string with a NUL in it is left out: the scan ends at the NUL, and what comes after it is
kept as it is.  Names come from the command line, where there is none.
-/
import Distray.Proofs.Scanning
import Distray.Proofs.Dispatch

namespace Distray

open Occurrences

/-! ### The recursion -/

/--
The recursion of `substitute_parameter` without fuel.  It ends because every parameter
takes something off the string.
-/
def substitute (str : Bytes) (value : Int) : Bytes :=
  if 0 ≤ value then
    match h : findParameter str with
    | some q =>
        have := findParameter_bounds h
        str.take q.first ++ padded value.toNat q.width ++ substitute (str.drop q.last) value
    | none => str
  else str
termination_by str.length
decreasing_by rw [List.length_drop]; omega

theorem substitute_eq (str : Bytes) (value : Int) :
    substitute str value = substituteParameter str value := by
  induction str using substitute.induct value with
  | case1 str hvalue q hq hbounds ih =>
      rw [substituteParameter_eq, if_pos hvalue, hq, substitute, if_pos hvalue]
      simp only [← ih]
      split
      · rename_i q' hq'
        rw [hq, Option.some.injEq] at hq'
        rw [hq']
      · rename_i hnone
        rw [hq] at hnone
        exact absurd hnone (by simp)
  | case2 str hvalue hq =>
      rw [substituteParameter_eq, if_pos hvalue, hq, substitute, if_pos hvalue]
      split
      · rename_i q hq'
        rw [hq] at hq'
        exact absurd hq' (by simp)
      · rfl
  | case3 str hvalue => rw [substituteParameter_eq, if_neg hvalue, substitute, if_neg hvalue]

/-- With fuel enough the recursion is the recursion without. -/
theorem substituteLoop_eq_substitute (value : Int) (fuel : Nat) (str : Bytes)
    (h : str.length < fuel) : substituteLoop fuel str value = substitute str value := by
  rw [substitute_eq]
  exact substituteLoop_fuel value fuel _ str h (Nat.lt_succ_self _)

/-! ### The pieces

Where the string is cut depends on the string alone, and the substitution is the pieces with
something else between them.  So two substitutions in one string can be compared piece by
piece.
-/

/-- What stands for a parameter of some width: the value in decimal, with zeros in front. -/
def expansion (value : Int) (_ : Bytes) (width : Nat) : Bytes :=
  (digitsOf value.toNat).leftpad width '0'.toUInt8

theorem padded_eq_expansion (value : Int) (w : Bytes) (width : Nat) :
    padded value.toNat width = expansion value w width := padded_eq _ _

/-- Every parameter is replaced, and nothing else; and the pieces are the same for all values. -/
theorem exists_cut {s : Bytes} (hs : 0 ∉ s) (hwidths : WidthsFit s) :
    ∃ pieces rest, Cut IsParameter s pieces rest ∧
      ∀ value, 0 ≤ value → substituteParameter s value = joined (expansion value) pieces rest := by
  induction hlen : s.length using Nat.strong_induction_on generalizing s with
  | _ n ih =>
      have hfirst := first_findParameter hs
      cases hq : findParameter s with
      | none =>
          rw [hq] at hfirst
          cases hfirst with
          | none hnone =>
              refine ⟨[], s, cut_nil fun i w k => hnone i w k (Nat.zero_le i), ?_⟩
              intro value hvalue
              rw [substituteParameter_eq, if_pos hvalue, hq]
              rfl
      | some q =>
          rw [hq] at hfirst
          cases hfirst with
          | @some _ digits _ hbefore hhere hlast hwidth =>
              have hshort : (s.drop q.last).length < n := by
                have hbounds := findParameter_bounds hq
                rw [List.length_drop]
                omega
              obtain ⟨pieces, rest, hcut, hjoined⟩ :=
                ih _ hshort (noNul_drop hs _) (widthsFit_drop hwidths _) rfl
              rw [← hlast] at hcut
              refine ⟨_, rest, cut_cons marked_isParameter hhere
                (fun j w k hlt => hbefore j w k (Nat.zero_le j) hlt) hcut, ?_⟩
              intro value hvalue
              rw [substituteParameter_eq, if_pos hvalue, hq, joined_cons, ← hjoined value hvalue,
                ← padded_eq_expansion, ← widthOf_eq (hwidths _ _ _ hhere), ← hwidth]
              exact List.append_assoc _ _ _

/-! ### What takes the place of a parameter -/

theorem isDigit_expansion (value : Int) (w : Bytes) (width : Nat) :
    ∀ c ∈ expansion value w width, isDigit c = true := by
  rw [← padded_eq_expansion]
  exact isDigit_padded _ _

theorem decimal_expansion {value : Int} (hvalue : 0 ≤ value) (w : Bytes) (width : Nat) :
    (decimal (expansion value w width) : Int) = value := by
  rw [← padded_eq_expansion, decimal_padded]
  exact Int.toNat_of_nonneg hvalue

theorem length_expansion_le {m n : Int} (h : m ≤ n) (w : Bytes) (width : Nat) :
    (expansion m w width).length ≤ (expansion n w width).length := by
  rw [← padded_eq_expansion, ← padded_eq_expansion]
  exact length_padded_le (Int.toNat_le_toNat h) _

theorem not_mem_expansion {c : UInt8} (hc : isDigit c = false) (value : Int) (w : Bytes)
    (width : Nat) : c ∉ expansion value w width :=
  fun hmem => ne_of_isDigit (isDigit_expansion value w width c hmem) hc rfl

theorem expansion_eq_cons (value : Int) (w : Bytes) (width : Nat) :
    ∃ c tail, expansion value w width = c :: tail ∧ c ≠ '%'.toUInt8 := by
  have hne : expansion value w width ≠ [] := by
    rw [← padded_eq_expansion]
    exact padded_ne_nil _ _
  obtain ⟨c, tail, heq⟩ := List.exists_cons_of_ne_nil hne
  refine ⟨c, tail, heq, ne_of_isDigit ?_ isDigit_percent⟩
  exact isDigit_expansion value w width c (by simp [heq])

/-! ### The result -/

theorem substituteParameter_of_not {s : Bytes} {value : Int}
    (h : value < 0 ∨ stringHasParameter s = false) : substituteParameter s value = s := by
  rcases h with hneg | hnone
  · exact substituteParameter_neg s hneg
  · have hq : findParameter s = none := by simpa [stringHasParameter] using hnone
    rw [substituteParameter_eq, hq]
    simp

theorem pieces_ne_nil {s : Bytes} {pieces : List (Piece UInt8 Nat)} {rest : Bytes}
    (hs : 0 ∉ s) (hcut : Cut IsParameter s pieces rest) (h : stringHasParameter s = true) :
    pieces ≠ [] :=
  hcut.ne_nil_iff.mpr ((stringHasParameter_iff hs).mp h)

/-- A string changes if it has a parameter, and otherwise not. -/
theorem substituteParameter_ne_iff {s : Bytes} (hs : 0 ∉ s) (hwidths : WidthsFit s) {value : Int}
    (hvalue : 0 ≤ value) : substituteParameter s value ≠ s ↔ stringHasParameter s = true := by
  constructor
  · intro hne
    by_contra hnone
    exact hne (substituteParameter_of_not (Or.inr (by simpa using hnone)))
  · intro h
    obtain ⟨pieces, rest, hcut, hjoined⟩ := exists_cut hs hwidths
    rw [hjoined value hvalue]
    exact hcut.joined_ne marked_isParameter (pieces_ne_nil hs hcut h)
      (expansion_eq_cons value)

/--
**What `substitute_parameter` returns.**  Its loops end; what it takes for a parameter is
one, and parameters do not overlap; without one, or with a negative value, nothing happens;
and otherwise the string is cut at its parameters, every one of them is replaced, and the
result is another string.  So what a `FileCopy` says about its names is what will happen to
them.
-/
theorem substituteParameter_spec {s : Bytes} (hs : 0 ∉ s) (hwidths : WidthsFit s) (value : Int) :
    ((∀ t fuel, t.length < fuel → findParameterFrom fuel t 0 = scan t 0) ∧
      ∀ fuel, s.length < fuel → substituteLoop fuel s value = substitute s value) ∧
    (stringHasParameter s = true ↔ ∃ i w n, Occurs IsParameter s i w n) ∧
    (∀ i w n j w' n', Occurs IsParameter s i w n → Occurs IsParameter s j w' n' → i < j →
      i + w.length ≤ j) ∧
    (value < 0 ∨ stringHasParameter s = false → substituteParameter s value = s) ∧
    (0 ≤ value → stringHasParameter s = true →
      (∃ pieces rest, Cut IsParameter s pieces rest ∧
        substituteParameter s value = joined (expansion value) pieces rest) ∧
      substituteParameter s value ≠ s) ∧
    (0 ≤ value → ∀ other,
      ((FileCopy.make s other).sourceHasParameter = true ↔ substituteParameter s value ≠ s) ∧
      ((FileCopy.make other s).destinationHasParameter = true ↔
        substituteParameter s value ≠ s)) := by
  refine ⟨⟨?_, ?_⟩, stringHasParameter_iff hs, ?_, substituteParameter_of_not, ?_, ?_⟩
  · intro t fuel hfuel
    exact findParameterFrom_eq_scan t fuel 0 (by omega)
  · intro fuel hfuel
    exact substituteLoop_eq_substitute value fuel s hfuel
  · intro i w n j w' n' h h' hlt
    exact h.disjoint marked_isParameter h' hlt
  · intro hvalue hparameter
    obtain ⟨pieces, rest, hcut, hjoined⟩ := exists_cut hs hwidths
    exact ⟨⟨pieces, rest, hcut, hjoined value hvalue⟩,
      (substituteParameter_ne_iff hs hwidths hvalue).mpr hparameter⟩
  · intro hvalue other
    have hchange := substituteParameter_ne_iff hs hwidths hvalue
    exact ⟨hchange.symm, hchange.symm⟩

/-- Two parameters, and text that is nearly one. -/
theorem substituteParameter_spec_seven :
    substituteParameter (bytes "%0%d%03d") 7 ≠ bytes "%0%d%03d" := by
  have hspec := substituteParameter_spec (s := bytes "%0%d%03d") (by decide)
    (widthsFit_of_length_le (by decide)) 7
  exact (hspec.2.2.2.2.1 (by decide) (by decide)).2

/-! ### Two values

Of two numbers the larger is written with at least as many digits, and so with zeros in
front as well.  If the two results were equal, all the places would have to be filled alike,
and a single one is enough to tell the numbers apart.
-/

theorem substituteParameter_ne_of_lt {s : Bytes} (hs : 0 ∉ s) (hwidths : WidthsFit s)
    (hparameter : stringHasParameter s = true) {m n : Int} (hm : 0 ≤ m) (hlt : m < n) :
    substituteParameter s m ≠ substituteParameter s n := by
  obtain ⟨pieces, rest, hcut, hjoined⟩ := exists_cut hs hwidths
  rw [hjoined m hm, hjoined n (by omega)]
  refine joined_ne (length_expansion_le (by omega)) ?_
    (pieces_ne_nil hs hcut hparameter) rest
  intro w width heq
  have hsame := congrArg (fun digits => (decimal digits : Int)) heq
  simp only [decimal_expansion hm, decimal_expansion (show 0 ≤ n by omega)] at hsame
  omega

theorem noNul_substituteParameter {s : Bytes} (hs : 0 ∉ s) (hwidths : WidthsFit s)
    {value : Int} (hvalue : 0 ≤ value) : 0 ∉ substituteParameter s value := by
  obtain ⟨pieces, rest, hcut, hjoined⟩ := exists_cut hs hwidths
  rw [hjoined value hvalue]
  rw [hcut.text] at hs
  exact not_mem_joined hs (not_mem_expansion (by decide) value)

/--
**Two frames never get the same name.**  The strings differ, and so do the names that a
file can be opened by, of which a NUL would be the end; so the name that is written for one
frame is never the one that is written for another.
-/
theorem substituteParameter_ne {s : Bytes} (hs : 0 ∉ s) (hwidths : WidthsFit s)
    (hparameter : stringHasParameter s = true) {m n : Int} (hm : 0 ≤ m) (hn : 0 ≤ n)
    (hne : m ≠ n) :
    substituteParameter s m ≠ substituteParameter s n ∧
    cStr (substituteParameter s m) ≠ cStr (substituteParameter s n) ∧
    ∀ (files files' : Files) (w v w' v' : RemoteWorker) (r r' : Response) (c c' : FileCopy),
      c.destination = s → c'.destination = s →
      w.handleCopyFileOutResponse files r m c = .ok v →
      w'.handleCopyFileOutResponse files' r' n c' = .ok v' →
        ∃ name content stored name' content' stored',
          v.trace = .writeFile name content stored :: w.trace ∧
          v'.trace = .writeFile name' content' stored' :: w'.trace ∧ cStr name ≠ cStr name' := by
  have hdiffer : substituteParameter s m ≠ substituteParameter s n := by
    rcases Int.lt_or_gt_of_ne hne with hlt | hgt
    · exact substituteParameter_ne_of_lt hs hwidths hparameter hm hlt
    · exact (substituteParameter_ne_of_lt hs hwidths hparameter hn hgt).symm
  have hnames : cStr (substituteParameter s m) ≠ cStr (substituteParameter s n) := by
    rw [cStr_of_noNul (noNul_substituteParameter hs hwidths hm),
      cStr_of_noNul (noNul_substituteParameter hs hwidths hn)]
    exact hdiffer
  refine ⟨hdiffer, hnames, ?_⟩
  intro files files' w v w' v' r r' c c' hc hc' h h'
  obtain ⟨-, -, rfl⟩ := RemoteWorker.handleCopyFileOutResponse_eq_ok h
  obtain ⟨-, -, rfl⟩ := RemoteWorker.handleCopyFileOutResponse_eq_ok h'
  rw [hc, hc']
  exact ⟨_, _, _, _, _, _, rfl, rfl, hnames⟩

/-- Where one parameter gets longer and the other does not. -/
theorem substituteParameter_ne_ten :
    substituteParameter (bytes "%d%02d") 9 ≠ substituteParameter (bytes "%d%02d") 10 :=
  (substituteParameter_ne (s := bytes "%d%02d") (by decide) (widthsFit_of_length_le (by decide))
    (by decide) (by decide) (by decide) (by decide)).1

end Distray
