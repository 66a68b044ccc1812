/-
What an endpoint string says: a hostname, a port, or both.

The source looks for the first colon.  With one, there is a hostname before it and a port
behind it, either of which may be missing; without one the whole string is a port if it is a
number, and a hostname otherwise.  What is missing is taken from the defaults.
-/
import Distray.Frames

namespace Distray

/-- `parse_integer`: -1 unless all of the string is a number without a sign. -/
def parseInteger (s : Bytes) : Int :=
  if ¬ s.head?.any isDigit then -1
  else
    -- without a number there is nothing to convert and nothing is consumed
    let (value, rest) := (strtol s).getD (0, s)
    if rest = [] then wrapInt value else -1

/-- `parse_endpoint`: the hostname and the port; where it returns false, what it prints. -/
def parseEndpoint (endpoint defaultHostname : Bytes) (defaultPort : Int) :
    Except Bytes (Bytes × Int) :=
  let s := cStr endpoint
  match s.findIdx? (· = ':'.toUInt8) with
  | none =>
      let possiblePort := parseInteger s
      if 0 ≤ possiblePort then .ok (defaultHostname, possiblePort)
      else if endpoint ≠ [] then .ok (endpoint, defaultPort)
      else .ok (defaultHostname, defaultPort)
  | some c =>
      let hostname := s.take c
      let rest := s.drop (c + 1)
      if rest ≠ [] then
        let possiblePort := parseInteger rest
        if 0 ≤ possiblePort then .ok (hostname, possiblePort)
        else .error (bytes "Bad port " ++ rest ++ bytes " in endpoint " ++ endpoint ++ bytes "\n")
      else .ok (hostname, defaultPort)

example : parseEndpoint (bytes ":1120") (bytes "localhost") 1121 = .ok ([], 1120) := by decide

end Distray
