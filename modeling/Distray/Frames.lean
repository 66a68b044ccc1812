/-
The range of frames to render.

`Frames::parse` reads the three numbers, and `get_all` counts from the first to the last in
steps.  Nothing in between looks at whether the count can get there: the loop adds an `int`
to an `int` until it is past the end, so it can also run for ever, or leave the range of
`int`, and both are outcomes here.
-/
import Distray.Outcome

namespace Distray

structure Frames where
  first : Int
  last : Int
  step : Int
deriving DecidableEq, Repr

namespace Frames

/-- Whether a frame is past the end, taking the step into account. -/
def isDone (f : Frames) (frame : Int) : Bool :=
  if f.step > 0 then frame > f.last else frame < f.last

/--
The loop of `get_all` from `frame` on.  `frame += m_step` is undefined once it leaves
the range of `int`; a loop that never gets past the end runs out of any fuel.
-/
def getAllFrom (f : Frames) : Nat → Int → Outcome (List Int)
  | 0, _ => .hang
  | fuel + 1, frame =>
      if f.isDone frame then .ok []
      else if frame + f.step < -2 ^ 31 ∨ 2 ^ 31 ≤ frame + f.step then .undefined
      else do
        let rest ← f.getAllFrom fuel (frame + f.step)
        pure (frame :: rest)

/-- All frames, in order from first to last. -/
def getAll (f : Frames) (fuel : Nat) : Outcome (List Int) := f.getAllFrom fuel f.first

end Frames

/-! ### Reading a specification

The parser takes a number, looks at the byte it stopped at, and goes on behind it if that is
a comma.  `strtol` skips white space and clamps what is too large for a `long`; what then
becomes of the `long` is up to `parse_int`, which keeps 32 bits of it.
-/

/-- `isspace` in the C locale. -/
def isSpace (c : UInt8) : Bool := c = ' '.toUInt8 || (9 ≤ c && c ≤ 13)

/-- The value of a run of digits. -/
def decimal (digits : Bytes) : Nat :=
  digits.foldl (fun n c => n * 10 + (c.toNat - '0'.toUInt8.toNat)) 0

/--
`strtol` in base 10, where `long` has 64 bits: the number and what comes after it, unless
there is no digit.  A number that is too large becomes the largest one.
-/
def strtol (s : Bytes) : Option (Int × Bytes) :=
  let t := s.dropWhile isSpace
  let negative := t[0]? = some '-'.toUInt8
  let t := if negative ∨ t[0]? = some '+'.toUInt8 then t.drop 1 else t
  let digits := t.takeWhile isDigit
  if digits = [] then none
  else
    let value : Int := if negative then -decimal digits else decimal digits
    some (max (-2 ^ 63) (min value (2 ^ 63 - 1)), t.drop digits.length)

/-- `parse_int`: an `int` and what comes after it, or the text that the exception carries. -/
def parseInt (s : Bytes) : Except Bytes (Int × Bytes) :=
  match strtol s with
  | some (value, rest) => .ok (wrapInt value, rest)
  | none => .error s

namespace Frames

/-- The numbers of a specification, and what comes after them. -/
def parseNumbers (s : Bytes) : Except Bytes (Frames × Bytes) := do
  let (first, s) ← parseInt s
  if s[0]? = some ','.toUInt8 then
    let (last, s) ← parseInt (s.drop 1)
    if s[0]? = some ','.toUInt8 then
      let (step, s) ← parseInt (s.drop 1)
      pure (⟨first, last, step⟩, s)
    else pure (⟨first, last, if first ≤ last then 1 else -1⟩, s)
  else pure (⟨first, first, 1⟩, s)

/-- `Frames::parse`; where it returns false, with what it prints. -/
def parse (spec : Bytes) : Except Bytes Frames :=
  match parseNumbers (cStr spec) with
  | .error what => .error (bytes "Invalid number in frame specification: " ++ what ++ bytes "\n")
  | .ok (frames, rest) =>
      if rest ≠ [] then .error (bytes "Cannot parse frame specification: " ++ spec ++ bytes "\n")
      else .ok frames

example : parse (bytes " 10,-2") = .ok ⟨10, -2, -1⟩ := by decide

end Frames

end Distray
