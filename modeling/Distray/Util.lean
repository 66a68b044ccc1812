/-
Strings, pathnames and local files, as in `util.cpp`.

A `std::string` is a list of bytes and may contain any of them, NUL included.  What
goes through `c_str()` — the scan for parameters, the name handed to a file stream —
ends at the first NUL; what goes through `substr` and `length` does not.

Files are the operating system's, so the two file helpers take what it answers as an
argument: what a pathname delivers when it is read, and how much of what is written
to it arrives.
-/
import Mathlib.Algebra.Group.Int.Defs
import Mathlib.Algebra.Group.Nat.Defs
import Mathlib.Data.List.Basic

namespace Distray

/-- A `std::string`, or a run of raw bytes. -/
abbrev Bytes := List UInt8

/-- The bytes of a literal. -/
def bytes (s : String) : Bytes := s.toList.map Char.toUInt8

/-- What `c_str()` shows of a string: everything before the first NUL. -/
def cStr (s : Bytes) : Bytes := s.takeWhile (· ≠ 0)

/-- An `int` computation: the result wrapped to 32 bits. -/
def wrapInt (n : Int) : Int := n.bmod (2 ^ 32)

/-- Whether a number is representable in an `int`. -/
def FitsInt (n : Int) : Prop := -2 ^ 31 ≤ n ∧ n < 2 ^ 31

instance (n : Int) : Decidable (FitsInt n) := inferInstanceAs (Decidable (_ ∧ _))

theorem fitsInt_wrapInt (n : Int) : FitsInt (wrapInt n) := by
  unfold FitsInt wrapInt
  have hlow := Int.le_bmod (x := n) (show 0 < 2 ^ 32 by decide)
  have hhigh := Int.bmod_lt (x := n) (show 0 < 2 ^ 32 by decide)
  omega

theorem wrapInt_of_fits {n : Int} (h : FitsInt n) : wrapInt n = n := by
  obtain ⟨hlow, hhigh⟩ := h
  unfold wrapInt
  rw [Int.bmod_eq_of_le_mul_two] <;> omega

/-! ### Frame parameters in strings -/

/-- `*p >= '0' && *p <= '9'`. -/
def isDigit (c : UInt8) : Bool := '0'.toUInt8 ≤ c && c ≤ '9'.toUInt8

/-- What `find_parameter` reports: `begin` (inclusive), `end` (exclusive) and `width`. -/
structure Parameter where
  first : Nat
  last : Nat
  width : Int
deriving DecidableEq, Repr

/--
The loop of `find_parameter`, `p` being the position the search resumes at.  Every
turn moves `p` past a `%`, so the length of the string is fuel enough.
-/
def findParameterFrom : Nat → Bytes → Nat → Option Parameter
  | 0, _, _ => none
  | fuel + 1, s, p =>
      match (s.drop p).findIdx? (· = '%'.toUInt8) with
      | none => none
      | some k =>
          let start := p + k
          let p := start + 1
          if s[p]? = some '0'.toUInt8 ∨ s[p]? = some 'd'.toUInt8 then
            let digits := (s.drop p).takeWhile isDigit
            let width := digits.foldl
              (fun w c => wrapInt (w * 10 + (c.toNat - '0'.toUInt8.toNat : Nat))) 0
            let p := p + digits.length
            if s[p]? = some 'd'.toUInt8 then some ⟨start, p + 1, width⟩
            else findParameterFrom fuel s p
          else findParameterFrom fuel s p

/-- The first parameter, `%d` or `%0Nd`, of a string. -/
def findParameter (str : Bytes) : Option Parameter :=
  findParameterFrom ((cStr str).length + 1) (cStr str) 0

def stringHasParameter (str : Bytes) : Bool := (findParameter str).isSome

/-- A number in decimal, padded on the left with zeros up to a width. -/
def padded (value : Nat) (width : Int) : Bytes :=
  let digits := (Nat.toDigits 10 value).map Char.toUInt8
  if width = 0 then digits
  else List.replicate (width.toNat - digits.length) '0'.toUInt8 ++ digits

/-- `substitute_parameter`, its recursion on the rest of the string bounded by fuel. -/
def substituteLoop : Nat → Bytes → Int → Bytes
  | 0, str, _ => str
  | fuel + 1, str, value =>
      if 0 ≤ value then
        match findParameter str with
        | some q =>
            str.take q.first ++ padded value.toNat q.width
              ++ substituteLoop fuel (str.drop q.last) value
        | none => str
      else str

/-- Substitute a value for every parameter; nothing happens if it is negative. -/
def substituteParameter (str : Bytes) (value : Int) : Bytes :=
  substituteLoop (str.length + 1) str value

theorem substituteLoop_neg (fuel : Nat) (str : Bytes) {value : Int} (h : value < 0) :
    substituteLoop fuel str value = str := by
  cases fuel with
  | zero => rfl
  | succ fuel => rw [substituteLoop, if_neg (by omega)]

theorem substituteParameter_neg (str : Bytes) {value : Int} (h : value < 0) :
    substituteParameter str value = str := substituteLoop_neg _ _ h

/-! ### The fuel of the two loops is enough

The scan stops at a `%` in every turn and goes on behind it, and the substitution goes on
behind the parameter it has found.  Each of them has less of the string before it every
time, so it never runs out of a fuel that is as large as the string is long.
-/

theorem findParameterFrom_bounds {q : Parameter} :
    ∀ (fuel : Nat) (s : Bytes) (p : Nat), findParameterFrom fuel s p = some q →
      p ≤ q.first ∧ q.first < q.last ∧ q.last ≤ s.length := by
  intro fuel
  induction fuel with
  | zero => intro s p h; simp [findParameterFrom] at h
  | succ fuel ih =>
      intro s p h
      rw [findParameterFrom] at h
      split at h
      · exact absurd h (by simp)
      · rename_i k hk
        simp only at h
        split at h
        · split at h
          · rename_i hd
            rw [Option.some.injEq] at h
            subst h
            have hlt := (List.getElem?_eq_some_iff.mp hd).1
            exact ⟨by simp, by simp; omega, Nat.succ_le_of_lt hlt⟩
          · have := ih _ _ h
            omega
        · have := ih _ _ h
          omega

theorem findParameter_bounds {str : Bytes} {q : Parameter} (h : findParameter str = some q) :
    q.first < q.last ∧ q.last ≤ str.length := by
  have hb := findParameterFrom_bounds _ _ _ h
  have hle : (cStr str).length ≤ str.length := (List.takeWhile_sublist _).length_le
  omega

theorem substituteLoop_fuel (value : Int) :
    ∀ (fuel fuel' : Nat) (str : Bytes), str.length < fuel → str.length < fuel' →
      substituteLoop fuel str value = substituteLoop fuel' str value := by
  intro fuel
  induction fuel with
  | zero => intro fuel' str h; omega
  | succ fuel ih =>
      intro fuel' str h h'
      match fuel' with
      | 0 => omega
      | fuel' + 1 =>
          rw [substituteLoop, substituteLoop]
          by_cases hv : 0 ≤ value
          · rw [if_pos hv, if_pos hv]
            cases hq : findParameter str with
            | none => rfl
            | some q =>
                have hb := findParameter_bounds hq
                have hlen : (str.drop q.last).length = str.length - q.last := List.length_drop
                simp only
                rw [ih fuel' (str.drop q.last) (by omega) (by omega)]
          · rw [if_neg hv, if_neg hv]

/-- **The recursion of `substitute_parameter`, as the source writes it.** -/
theorem substituteParameter_eq (str : Bytes) (value : Int) :
    substituteParameter str value =
      if 0 ≤ value then
        match findParameter str with
        | some q =>
            str.take q.first ++ padded value.toNat q.width
              ++ substituteParameter (str.drop q.last) value
        | none => str
      else str := by
  unfold substituteParameter
  rw [substituteLoop]
  by_cases hv : 0 ≤ value
  · rw [if_pos hv, if_pos hv]
    cases hq : findParameter str with
    | none => rfl
    | some q =>
        have hb := findParameter_bounds hq
        have hlen : (str.drop q.last).length = str.length - q.last := List.length_drop
        simp only
        rw [substituteLoop_fuel value str.length ((str.drop q.last).length + 1) _
          (by omega) (by omega)]
  · rw [if_neg hv, if_neg hv]

example : substituteParameter (bytes "abc%05ddef%dghi") 123 = bytes "abc00123def123ghi" := by
  decide

/-! ### Pathnames -/

/-- `pathname.find("..") != std::string::npos`. -/
def hasDotDot : Bytes → Bool
  | a :: b :: rest => (a == '.'.toUInt8 && b == '.'.toUInt8) || hasDotDot (b :: rest)
  | _ => false

/-- Relative, and without two consecutive dots. -/
def isPathnameLocal (pathname : Bytes) : Bool :=
  if pathname[0]? = some '/'.toUInt8 then false
  else if hasDotDot pathname then false
  else true

/-! ### Files -/

/-- What the operating system answers to file operations. -/
structure Files where
  /-- What reading a file delivers before its end or an error; `none` if it does not open. -/
  openIn : Bytes → Option Bytes
  /-- How much of what is written to a file arrives; `none` if it does not open. -/
  openOut : Bytes → Option Nat

/-- `read_file`; `none` is the exception. -/
def readFile (files : Files) (pathname : Bytes) : Option Bytes := files.openIn (cStr pathname)

/-- `write_file`: whether it reports success, which only depends on the open. -/
def writeFile (files : Files) (pathname _content : Bytes) : Bool :=
  (files.openOut (cStr pathname)).isSome

/-- What a file holds after `write_file`: what has arrived of the content, if it opened. -/
def Files.stored (files : Files) (pathname content : Bytes) : Option Bytes :=
  (files.openOut (cStr pathname)).map fun arrived => content.take arrived

theorem writeFile_eq_true {files : Files} {pathname content : Bytes} :
    writeFile files pathname content = true ↔
      ∃ stored, files.stored pathname content = some stored := by
  rw [writeFile, Files.stored, Option.isSome_iff_exists]
  simp

/-- The file was opened, and this is what it holds now. -/
def Files.Stores (files : Files) (pathname content : Bytes) (stored : Option Bytes) : Prop :=
  ∃ kept, stored = some kept ∧ files.stored pathname content = some kept

theorem Files.stores_of_writeFile {files : Files} {pathname content : Bytes}
    (h : writeFile files pathname content = true) :
    files.Stores pathname content (files.stored pathname content) := by
  obtain ⟨kept, hkept⟩ := writeFile_eq_true.mp h
  exact ⟨kept, hkept, hkept⟩

end Distray
