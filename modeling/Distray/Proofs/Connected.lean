/-
Every worker of a controller is in step.

What holds for one remote worker and its link holds for all of them at once, because a
step of the controller changes one worker and a step of the network one link, and no
two workers are at one address.

The invariant has a condition, as the one for a pair has: messages that are too long for the
length field are never made.  Nothing in the source looks at that, and protobuf does not
serialize messages of that size.
-/
import Distray.System
import Distray.Proofs.Moves
import Distray.Proofs.Lockstep

namespace Distray

/-! ### Every worker is in step -/

/-- Each of these workers is in step with its link, if what it sends fits. -/
def Connected (codec : Codec) (links : Nat → Link) (ws : List RemoteWorker) : Prop :=
  ∀ w ∈ ws, messagesFit codec w (links w.addr) = true → InStep codec w (links w.addr)

namespace Controller

open RemoteWorker

variable {codec : Codec} {p : Parameters}

theorem not_stopped_of_step {s t : Controller} {input : Input}
    (h : step codec p s input = some t) : s.pc.stopped = false := by
  cases hpc : s.pc with
  | returned code => simp [step, hpc] at h
  | exited why => simp [step, hpc] at h
  | hung => simp [step, hpc] at h
  | undefined => simp [step, hpc] at h
  | _ => rfl

/-- In the `POLLIN` branch of an entry, a step is the call of `receive` for its worker. -/
theorem step_recv {s t : Controller} {r : Except Errno Bytes} {files : Files} {i : Nat}
    {w : RemoteWorker} (hpc : s.pc = .receiving (i + 1)) (hw : s.remoteWorkers[i]? = some w)
    (h : step codec p s (.recv r files) = some t) :
    w.incomingBuffer.admits r = true ∧ t = s.receiveFrom codec p r files i w := by
  cases move_of_step h with
  | receive hpc' _ hw' hfit =>
      rw [hpc] at hpc'
      simp only [Pc.receiving.injEq, Nat.add_right_cancel_iff] at hpc'
      subst hpc'
      rw [hw, Option.some.injEq] at hw'
      subst hw'
      exact ⟨hfit, rfl⟩

theorem Objects.addr_ne {s : Controller} (h : Objects s) {i j : Nat} {w w' : RemoteWorker}
    (hw : s.remoteWorkers[i]? = some w) (hw' : s.remoteWorkers[j]? = some w') (hne : j ≠ i) :
    w'.addr ≠ w.addr :=
  fun haddr => hne (h.unique hw' hw haddr)

/-! ### A property of a worker and its link

A property of one worker and its link has to be kept by what the controller does with that
worker and by what happens at the other end.  That no other worker is at its address makes
it a property of all of them, so the rule is here and the properties come later.
-/

/--
What a controller and the links make of each other: the workers that are still to come
have not connected yet, and those that are there are related to their links.
-/
structure Attached (R : RemoteWorker → Link → Prop) (hops : Nat → Nat) (links : Nat → Link)
    (s : Controller) : Prop where
  fresh : ∀ addr, s.nextAddr ≤ addr → links addr = Link.make (hops addr)
  each : ∀ w ∈ s.remoteWorkers, R w (links w.addr)

/-- The calls of the controller keep such a property of workers that are in step. -/
structure Keeps (codec : Codec) (p : Parameters) (R : RemoteWorker → Link → Prop) : Prop where
  newcomer : ∀ {addr n : Nat} {w : RemoteWorker}, Newcomer codec addr w → R w (Link.make n)
  receive : ∀ {w w' : RemoteWorker} {l l' : Link} {data : Bytes} {files : Files},
    InStep codec w l → messagesFit codec w l = true → R w l →
    w.incomingBuffer.admits (.ok data) = true → l.deliver data = some l' →
    w.receive codec p files (.ok data) = .ok (.ok w') → R w' l'
  send : ∀ {w w' : RemoteWorker} {l : Link} {r : Except Errno Nat} {out : Bytes},
    InStep codec w l → messagesFit codec w l = true → R w l →
    w.outgoingBuffer.admits r = true → w.send r = .ok (w', out) → R w' (l.post out)
  runFrame : ∀ {w w' : RemoteWorker} {l : Link} {frame : Int} {files : Files},
    InStep codec w l → messagesFit codec w l = true → R w l →
    w.runFrame codec p files frame = .ok w' → R w' l

variable {hops : Nat → Nat} {links : Nat → Link} {R : RemoteWorker → Link → Prop}

/-- Replacing a worker, and its link along with it. -/
theorem Attached.set {s : Controller} (hobj : Objects s) (h : Attached R hops links s) {i : Nat}
    {w w' : RemoteWorker} {l : Link} (hw : s.remoteWorkers[i]? = some w)
    (haddr : w'.addr = w.addr) (hnew : R w' l) :
    ∀ w₁ ∈ s.remoteWorkers.set i w', R w₁ (Function.update links w.addr l w₁.addr) := by
  intro w₁ hw₁
  obtain ⟨j, hj⟩ := List.mem_iff_getElem?.mp hw₁
  rw [List.getElem?_set] at hj
  by_cases hij : i = j
  · rw [if_pos hij] at hj
    split at hj
    · rw [Option.some.injEq] at hj
      rw [← hj, haddr, Function.update_self]
      exact hnew
    · exact absurd hj (by simp)
  · rw [if_neg hij] at hj
    rw [Function.update_of_ne (hobj.addr_ne hw hj (Ne.symm hij))]
    exact h.each w₁ (List.mem_of_getElem? hj)

theorem Attached.join {s : Controller} (hR : Keeps codec p R) (h : Attached R hops links s)
    {w : RemoteWorker} (hnew : Newcomer codec s.nextAddr w) : Attached R hops links (s.join w) := by
  refine ⟨fun addr haddr => h.fresh addr (Nat.le_of_succ_le haddr), ?_⟩
  intro w' hw'
  rcases List.mem_append.mp hw' with hw' | hw'
  · exact h.each w' hw'
  · rw [List.mem_singleton] at hw'
    rw [hw', hnew.spec.2.1, h.fresh _ (Nat.le_refl _)]
    exact hR.newcomer hnew

/-- The addresses that are still to come are none that a worker has. -/
theorem Attached.fresh_update {s : Controller} (hobj : Objects s) (h : Attached R hops links s)
    {w : RemoteWorker} (hw : w ∈ s.remoteWorkers) (l : Link) (addr : Nat)
    (haddr : s.nextAddr ≤ addr) :
    Function.update links w.addr l addr = Link.make (hops addr) := by
  have hlt := hobj.addrs_lt w hw
  rw [Function.update_of_ne (by omega)]
  exact h.fresh addr haddr

/-- Removing a worker, whatever has become of its link. -/
theorem Attached.kill {s : Controller} (hobj : Objects s) (h : Attached R hops links s)
    {index : Nat} {w : RemoteWorker} (hw : s.remoteWorkers[index]? = some w) (l : Link)
    (i : Nat) (next : Pc) :
    Attached R hops (Function.update links w.addr l) (s.killWorker i index next) := by
  rw [killWorker_eq hw]
  refine ⟨h.fresh_update hobj (List.mem_of_getElem? hw) l, ?_⟩
  intro w₁ hw₁
  obtain ⟨j, hij, hj⟩ := List.mem_eraseIdx_iff_getElem?.mp hw₁
  rw [Function.update_of_ne (hobj.addr_ne hw hj hij)]
  exact h.each w₁ (List.mem_of_getElem? hj)

/-- Replacing a link, with what its worker makes of it. -/
theorem Attached.update {s : Controller} (h : Attached R hops links s) {addr : Nat}
    (haddr : addr < s.nextAddr) {l : Link}
    (hl : ∀ w ∈ s.remoteWorkers, w.addr = addr → R w l) :
    Attached R hops (Function.update links addr l) s := by
  refine ⟨?_, ?_⟩
  · intro addr' haddr'
    rw [Function.update_of_ne (by omega)]
    exact h.fresh addr' haddr'
  · intro w hw
    by_cases heq : w.addr = addr
    · rw [heq, Function.update_self]
      exact hl w hw heq
    · rw [Function.update_of_ne heq]
      exact h.each w hw

/-! ### Being in step -/

/--
The workers that are still to come have not connected yet, and those that are there are
in step.
-/
structure Linked (codec : Codec) (hops : Nat → Nat) (links : Nat → Link) (s : Controller) :
    Prop where
  fresh : ∀ addr, s.nextAddr ≤ addr → links addr = Link.make (hops addr)
  connected : Connected codec links s.remoteWorkers

/-- A newcomer is in step with a worker that has just connected. -/
theorem Newcomer.inStep {addr : Nat} {w : RemoteWorker} (h : Newcomer codec addr w) {n : Nat}
    (hfit : messagesFit codec w (Link.make n) = true) : InStep codec w (Link.make n) := by
  obtain ⟨fd, proxyIndex, rfl⟩ := h
  have hmade : InStep codec (make addr fd) (Link.make n) := InStep.make addr fd n
  obtain ⟨hready, hquiet⟩ := hmade.ready rfl
  have hready' : { make addr fd with proxyIndex := proxyIndex }.Ready :=
    hready.of_eq rfl rfl rfl rfl
  exact InStep.of_settled (Or.inr ⟨_, hready'.sendRequest _ _ rfl⟩) hquiet hfit

theorem Linked.attached {s : Controller} (h : Linked codec hops links s) :
    Attached (fun w l => messagesFit codec w l = true → InStep codec w l) hops links s :=
  ⟨h.fresh, h.connected⟩

theorem keeps_inStep :
    Keeps codec p (fun w l => messagesFit codec w l = true → InStep codec w l) where
  newcomer hnew := hnew.inStep
  receive hin _ _ hadmits hdeliver hok := hin.receive hadmits hdeliver hok
  send hin _ _ hadmits hok _ := hin.send hadmits hok
  runFrame hin _ _ hok := hin.runFrame hok

end Controller

namespace System

open RemoteWorker Controller

variable {codec : Codec} {p : Parameters} {hops : Nat → Nat}

/-- What holds of the system in every state it reaches. -/
structure Inv (codec : Codec) (hops : Nat → Nat) (s : System) : Prop where
  objects : s.controller.Objects
  fits : ∀ w ∈ s.controller.remoteWorkers, messagesFit codec w (s.links w.addr) = true
  linked : s.controller.pc.stopped = false → Linked codec hops s.links s.controller

/-- While the controller runs, each of its workers is in step. -/
theorem Inv.inStep {s : System} (h : Inv codec hops s)
    (hrunning : s.controller.pc.stopped = false) {w : RemoteWorker}
    (hw : w ∈ s.controller.remoteWorkers) : InStep codec w (s.links w.addr) :=
  (h.linked hrunning).connected w hw (h.fits w hw)

theorem transport_eq {s : System} {input : Controller.Input}
    (hrecv : ∀ r files, input ≠ .recv r files) (hsend : ∀ r, input ≠ .send r) :
    s.transport input = some s.links := by
  unfold transport
  split
  · rename_i r files _
    exact absurd rfl (hrecv r files)
  · rename_i r _
    exact absurd rfl (hsend r)
  · rfl

section Calls

variable {R : RemoteWorker → Link → Prop} {s : System} {links : Nat → Link}

theorem attached_receive (hR : Keeps codec p R) {r : Except Errno Bytes} {files : Files} {i : Nat}
    {w : RemoteWorker} (h : Inv codec hops s) (hattached : Attached R hops s.links s.controller)
    (hrunning : s.controller.pc.stopped = false)
    (htransport : s.transport (.recv r files) = some links)
    (hpc : s.controller.pc = .receiving (i + 1)) (hw : s.controller.remoteWorkers[i]? = some w)
    (hfit : w.incomingBuffer.admits r = true) :
    (s.controller.receiveFrom codec p r files i w).pc.stopped = false →
      Attached R hops links (s.controller.receiveFrom codec p r files i w) := by
  have hmem := List.mem_of_getElem? hw
  simp only [transport, hpc, hw, Option.map_eq_some_iff] at htransport
  obtain ⟨l, hl, rfl⟩ := htransport
  refine receiveFrom_of (R := fun c => c.pc.stopped = false → Attached R hops _ c)
    (fun pc htrue hfalse => absurd (htrue.symm.trans hfalse) (by simp)) ?_
    fun _ _ => hattached.kill h.objects hw l _ _
  intro w' hok _
  refine ⟨hattached.fresh_update h.objects hmem l, ?_⟩
  refine hattached.set h.objects hw (receive_same hok).1 ?_
  cases r with
  | error e => simp [RemoteWorker.receive, IncomingBuffer.receive] at hok
  | ok data =>
      exact hR.receive (h.inStep hrunning hmem) (h.fits w hmem) (hattached.each w hmem)
        hfit hl hok

theorem attached_send (hR : Keeps codec p R) {r : Except Errno Nat} {i : Nat} {w : RemoteWorker}
    (h : Inv codec hops s) (hattached : Attached R hops s.links s.controller)
    (hrunning : s.controller.pc.stopped = false)
    (htransport : s.transport (.send r) = some links)
    (hpc : s.controller.pc = .sending (i + 1)) (hw : s.controller.remoteWorkers[i]? = some w)
    (hfit : w.outgoingBuffer.admits r = true) :
    (s.controller.sendTo r i w).pc.stopped = false →
      Attached R hops links (s.controller.sendTo r i w) := by
  have hmem := List.mem_of_getElem? hw
  simp only [transport, hpc, hw] at htransport
  unfold sendTo
  split at htransport
  · rename_i w' out hok
    rw [Option.some.injEq] at htransport
    subst htransport
    have haddr : w'.addr = w.addr := by
      obtain ⟨b, -, rfl⟩ := send_eq_ok hok
      rfl
    simp only [hok]
    exact fun _ => ⟨hattached.fresh_update h.objects hmem _,
      hattached.set h.objects hw haddr
        (hR.send (h.inStep hrunning hmem) (h.fits w hmem) (hattached.each w hmem) hfit hok)⟩
  · rename_i e hok
    simp only [hok]
    exact fun hfalse => absurd hfalse (by simp [Pc.stopped])

/-- The link of a worker that is removed stays where it is. -/
theorem attached_kill (h : Inv codec hops s) (hattached : Attached R hops s.links s.controller)
    (i index : Nat) (next : Pc) :
    Attached R hops s.links (s.controller.killWorker i index next) := by
  cases hw : s.controller.remoteWorkers[index]? with
  | none =>
      rw [killWorker, hw]
      exact ⟨hattached.fresh, hattached.each⟩
  | some w =>
      have hkill := hattached.kill h.objects hw (s.links w.addr) i next
      rwa [Function.update_eq_self] at hkill

end Calls

/-- **What the calls keep, a step of the controller keeps**, unless it ends the program. -/
theorem attached_of_move {R : RemoteWorker → Link → Prop} (hR : Keeps codec p R) {s : System}
    {input : Controller.Input} {links : Nat → Link} {t : Controller} (h : Inv codec hops s)
    (hattached : Attached R hops s.links s.controller)
    (hrunning : s.controller.pc.stopped = false)
    (htransport : s.transport input = some links)
    (hmove : Move codec p s.controller input t) :
    t.pc.stopped = false → Attached R hops links t := by
  have hsame : (∀ r files, input ≠ .recv r files) → (∀ r, input ≠ .send r) → links = s.links := by
    intro hrecv hsend
    rw [transport_eq hrecv hsend, Option.some.injEq] at htransport
    exact htransport.symm
  cases hmove with
  | connect =>
      obtain rfl := hsame (by simp) (by simp)
      exact fun _ => connectProxies_of (fun _ _ _ hs => ⟨hs.fresh, hs.each⟩)
        (fun _ _ hs hnew => hs.join hR hnew) _ _ _ _ hattached
  | accept =>
      obtain rfl := hsame (by simp) (by simp)
      exact fun _ => acceptWorker_of (fun _ _ _ hs => ⟨hs.fresh, hs.each⟩)
        (fun _ _ hs hnew => hs.join hR hnew) _ _ hattached
  | receive hpc _ hw hfit => exact attached_receive hR h hattached hrunning htransport hpc hw hfit
  | send hpc _ hw hfit => exact attached_send hR h hattached hrunning htransport hpc hw hfit
  | kill =>
      obtain rfl := hsame (by simp) (by simp)
      exact fun _ => attached_kill h hattached _ _ _
  | @assign files frame rest index w hpc hframes hidle hw =>
      obtain rfl := hsame (by simp) (by simp)
      have hmem := List.mem_of_getElem? hw
      refine after_of (R := fun c => c.pc.stopped = false → Attached R hops s.links c)
        (fun pc htrue hfalse => absurd (htrue.symm.trans hfalse) (by simp))
        fun w' hok _ => ⟨hattached.fresh, ?_⟩
      have hset := hattached.set h.objects hw (runFrame_same hok).1
        (hR.runFrame (h.inStep hrunning hmem) (h.fits w hmem) (hattached.each w hmem) hok)
      rwa [Function.update_eq_self] at hset
  | _ =>
      obtain rfl := hsame (by simp) (by simp)
      exact fun _ => ⟨hattached.fresh, hattached.each⟩

/-- A step of the controller leaves everyone in step. -/
theorem linked_of_move {s : System} {input : Controller.Input} {links : Nat → Link}
    {t : Controller} (h : Inv codec hops s) (hrunning : s.controller.pc.stopped = false)
    (htransport : s.transport input = some links)
    (hmove : Move codec p s.controller input t) (ht : t.pc.stopped = false) :
    Linked codec hops links t := by
  obtain ⟨hfresh, heach⟩ := attached_of_move keeps_inStep h (h.linked hrunning).attached hrunning
    htransport hmove ht
  exact ⟨hfresh, heach⟩

/-- So does a step of a link. -/
theorem linked_of_link {s : System} {addr : Nat} {input : Link.Input} {l : Link}
    (hsound : codec.Sound) (h : Linked codec hops s.links s.controller)
    (hin : ∀ w ∈ s.controller.remoteWorkers, InStep codec w (s.links w.addr))
    (haddr : addr < s.controller.nextAddr) (hstep : (s.links addr).step codec input = some l) :
    Linked codec hops (Function.update s.links addr l) s.controller := by
  have hattached : Attached (fun w l => messagesFit codec w l = true → InStep codec w l) hops
      (Function.update s.links addr l) s.controller := by
    refine h.attached.update haddr ?_
    rintro w hw rfl hfit
    exact (hin w hw).link hsound hstep hfit
  exact ⟨hattached.fresh, hattached.each⟩

theorem Inv.step {s t : System} {input : Input} (hsound : codec.Sound) (h : Inv codec hops s)
    (hfits : Fits codec p s input) (hstep : System.step codec p s input = some t) :
    Inv codec hops t := by
  have hfit := List.all_eq_true.mp (hfits t hstep)
  cases input with
  | controller input =>
      rw [System.step] at hstep
      split at hstep
      · rename_i links c htransport hc
        rw [Option.some.injEq] at hstep
        subst hstep
        have hmove := move_of_step hc
        exact ⟨h.objects.move hmove, hfit,
          linked_of_move h (not_stopped_of_step hc) htransport hmove⟩
      · exact absurd hstep (by simp)
  | link addr input =>
      rw [System.step] at hstep
      split at hstep
      · rename_i haddr
        obtain ⟨l, hl, rfl⟩ := Option.map_eq_some_iff.mp hstep
        exact ⟨h.objects, hfit, fun hrunning => linked_of_link hsound (h.linked hrunning)
          (fun w hw => h.inStep hrunning hw) haddr hl⟩
      · exact absurd hstep (by simp)

/-- **Every worker is in step with its link in every state the system reaches.** -/
theorem reach_inv (hsound : codec.Sound) {sockFd : Int} {fuel : Nat} {s : System}
    (h : (machine codec p sockFd fuel hops).Reach (Fits codec p) s) : Inv codec hops s := by
  refine Machine.Reach.invariant ?_ (fun s input t hs hfits hstep => hs.step hsound hfits hstep) h
  have hworkers : (Controller.start p sockFd fuel).remoteWorkers = [] :=
    start_of (fun c => c.remoteWorkers = []) fun _ hworkers _ _ _ _ => hworkers
  have hnone : ∀ w, w ∉ (Controller.start p sockFd fuel).remoteWorkers := by
    rw [hworkers]
    exact fun w => List.not_mem_nil
  have haddrs : ((Controller.start p sockFd fuel).remoteWorkers.map RemoteWorker.addr).Nodup := by
    rw [hworkers]
    exact List.nodup_nil
  exact ⟨⟨fun w hw => absurd hw (hnone w), haddrs, fun w hw => absurd hw (hnone w)⟩,
    fun w hw => absurd hw (hnone w), fun _ => ⟨fun _ _ => rfl, fun w hw => absurd hw (hnone w)⟩⟩

end System

end Distray
