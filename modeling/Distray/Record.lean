/-
What the workers have done, on record.

A worker's end of a connection keeps no account of the requests it has dealt with, and
neither end can see the other's.  Here every return of a handler goes on record, for
one pair and for all the workers of a system; the steps are the same as without it.

An entry has the request and everything the operating system answered while it was handled,
so that the response can be computed from it, and what was read, written or executed then
can be asked afterwards.
-/
import Distray.System
import Distray.Lib.History

namespace Distray

/-- A request that a handler has returned for, and what the operating system answered. -/
structure Handled where
  request : Request
  env : WorkerEnv

/-- What the handler returned. -/
def Handled.response (x : Handled) : Response := Worker.handle x.env x.request

/-- What goes on record: the request at hand when its handler returns. -/
def Link.note (l : Link) : Link.Input → List Handled
  | .handle env =>
      match l.process with
      | .handling request => [⟨request, env⟩]
      | _ => []
  | _ => []

namespace Pair

variable (codec : Codec) (p : Parameters)

def note (s : Pair) : Input → List Handled
  | .link input => s.link.note input
  | _ => []

def recorded (addr : Nat) (fd : Int) (hops : Nat) : Machine (Pair × List Handled) Input :=
  (machine codec p addr fd hops).recording note

end Pair

namespace System

variable (codec : Codec) (p : Parameters)

/-- The entries say at whose end of which connection. -/
def note (s : System) : Input → List (Nat × Handled)
  | .link addr input => ((s.links addr).note input).map fun x => (addr, x)
  | _ => []

def recorded (sockFd : Int) (fuel : Nat) (hops : Nat → Nat) :
    Machine (System × List (Nat × Handled)) Input :=
  (machine codec p sockFd fuel hops).recording note

/-- What is on record about one worker. -/
def recordOf (addr : Nat) (record : List (Nat × Handled)) : List Handled :=
  record.filterMap fun entry => if entry.1 = addr then some entry.2 else none

@[simp] theorem recordOf_append (addr : Nat) (record new : List (Nat × Handled)) :
    recordOf addr (record ++ new) = recordOf addr record ++ recordOf addr new := by
  simp [recordOf]

theorem recordOf_note_self (addr : Nat) (new : List Handled) :
    recordOf addr (new.map fun x => (addr, x)) = new := by
  simp [recordOf, List.filterMap_map]

theorem recordOf_note_ne {addr addr' : Nat} (h : addr' ≠ addr) (new : List Handled) :
    recordOf addr (new.map fun x => (addr', x)) = [] := by
  simp [recordOf, List.filterMap_map, h]

end System

end Distray
