/-
The controller and all the workers that ever connect to it.

Every `RemoteWorker` the controller makes has a link of its own, which is found by the
worker's address.  The controller takes its steps as before, except that the bytes of
a `recv` now come out of a link and those of a `send` go into one; the links take
theirs whenever they like, whether or not the controller still knows their worker.
-/
import Distray.Controller
import Distray.Pair
import Mathlib.Logic.Function.Basic

namespace Distray

structure System where
  controller : Controller
  links : Nat → Link

namespace System

inductive Input
  | controller (input : Controller.Input)
  | link (addr : Nat) (input : Link.Input)

variable (codec : Codec) (p : Parameters)

/-- What the controller's next call does to the links. -/
def transport (s : System) (input : Controller.Input) : Option (Nat → Link) :=
  match s.controller.pc, input with
  | .receiving (i + 1), .recv r _ =>
      match s.controller.remoteWorkers[i]? with
      | some w => (Pair.delivered (s.links w.addr) r).map fun l => Function.update s.links w.addr l
      | none => some s.links
  | .sending (i + 1), .send r =>
      match s.controller.remoteWorkers[i]? with
      | some w =>
          match w.send r with
          | .ok (_, out) =>
              some (Function.update s.links w.addr ((s.links w.addr).post out))
          | .error _ => some s.links
      | none => some s.links
  | _, _ => some s.links

def step (s : System) : Input → Option System
  | .controller input =>
      match s.transport input, s.controller.step codec p input with
      | some links, some controller => some ⟨controller, links⟩
      | _, _ => none
  | .link addr input =>
      if addr < s.controller.nextAddr then
        ((s.links addr).step codec input).map fun l =>
          { s with links := Function.update s.links addr l }
      else none

/-- A controller that nobody has connected to, and how far away each worker will be. -/
def machine (sockFd : Int) (fuel : Nat) (hops : Nat → Nat) : Machine System Input where
  init := ⟨Controller.start p sockFd fuel, fun addr => Link.make (hops addr)⟩
  step := step codec p

/-- Every message fits after the step, too. -/
abbrev Fits (s : System) (input : Input) : Prop :=
  ∀ t ∈ step codec p s input, (t.controller.remoteWorkers.all fun w =>
    messagesFit codec w (t.links w.addr)) = true

end System

end Distray
