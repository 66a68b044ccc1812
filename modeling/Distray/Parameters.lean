/-
What the command line asks for.

A `FileCopy` computes two flags when it is made and never again, so the structure
carries the proof that they are what they were computed from.
-/
import Distray.Frames

namespace Distray

/-- A file copy, in or out. -/
structure FileCopy where
  source : Bytes
  destination : Bytes
  sourceHasParameter : Bool
  destinationHasParameter : Bool
  source_flag : sourceHasParameter = stringHasParameter source
  destination_flag : destinationHasParameter = stringHasParameter destination
deriving DecidableEq

namespace FileCopy

/-- The constructor. -/
def make (source destination : Bytes) : FileCopy :=
  ⟨source, destination, stringHasParameter source, stringHasParameter destination, rfl, rfl⟩

/-- If either source or destination has a parameter. -/
def hasParameter (c : FileCopy) : Bool := c.sourceHasParameter || c.destinationHasParameter

theorem hasParameter_eq (c : FileCopy) :
    c.hasParameter = (stringHasParameter c.source || stringHasParameter c.destination) := by
  rw [hasParameter, c.source_flag, c.destination_flag]

end FileCopy

/-- An endpoint string; what it resolves to is the resolver's business. -/
structure Endpoint where
  endpoint : Bytes
deriving DecidableEq, Repr

/-- The parameters of the controller command. -/
structure Parameters where
  proxyEndpoints : List Endpoint := []
  inCopies : List FileCopy := []
  outCopies : List FileCopy := []
  frames : Frames
  executable : Bytes
  arguments : List Bytes := []
deriving DecidableEq

end Distray
