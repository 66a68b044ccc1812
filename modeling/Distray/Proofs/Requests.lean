/-
What the worker at the other end has to handle.

The requests that a remote worker makes are local when its parameters have been checked.
A request then goes through a buffer and some queues and comes out of a parser; `Fed`
says of the bytes that are on the way that they are such a request, or nothing, and of a
worker that is busy that it is busy with one.  The other end may go on by itself when the
controller's end is gone, so what it does is a machine of its own.

What a worker does with a request it has read is its own affair and goes on when nobody waits
for the answer any more.  So the statement is about every worker that was ever connected,
and not about those that the controller still has.
-/
import Distray.Proofs.Pathnames
import Distray.Proofs.Rendering

namespace Distray

/-! ### What a worker is fed -/

/--
What is on its way to a worker, and what it is busy with; `pending` is what the
controller's end has not sent yet.
-/
structure Fed (codec : Codec) (pending : Bytes) (l : Link) : Prop where
  stream : l.toWorker.stream ++ pending = [] ∨ ∃ request : Request, request.Local ∧
    (codec.serializeRequest request).length + 4 < 2 ^ 32 ∧
    l.toWorker.stream ++ pending = frame (codec.serializeRequest request)
  handling : ∀ request, l.process = .handling request → request.Local

namespace Fed

variable {codec : Codec} {pending : Bytes}

/-- A worker that takes a message out of its queue takes a local request, or nothing. -/
theorem received {l : Link} {q left : Bytes} {rest : Chain UInt8} {process : Process}
    (hsound : codec.Sound) (h : Fed codec pending l) (hqueue : l.toWorker = q :: rest)
    (hreceived : Process.received codec q = some (process, left)) :
    Fed codec pending { l with process := process, toWorker := left :: rest } := by
  obtain ⟨data, htake, hprocess⟩ := Process.received_cases hreceived
  -- the message is at the front of everything that is on its way
  have hfront : lengthHeader.takeFrame (l.toWorker.stream ++ pending)
      = some (data, Chain.stream (left :: rest) ++ pending) := by
    have hmore := Header.takeFrame_append htake (rest.flatten ++ pending)
    simpa [hqueue, Chain.stream] using hmore
  rcases h.stream with hnil | ⟨request, hlocal, hfit, hframe⟩
  · rw [hnil] at hfront
    exact absurd hfront (by simp)
  · rw [hframe, ← List.append_nil (frame _),
      Header.takeFrame_frame (by simp only [lengthHeader_bound]; omega), Option.some.injEq,
      Prod.mk.injEq] at hfront
    obtain ⟨hdata, hrest⟩ := hfront
    refine ⟨Or.inl hrest.symm, ?_⟩
    intro request' hhandling
    rcases hprocess with hclosed | ⟨-, hfailed⟩ | ⟨request₁, hparse, hbusy⟩
    · exact absurd (hclosed.symm.trans hhandling) (by simp)
    · exact absurd (hfailed.symm.trans hhandling) (by simp)
    · rw [← hdata, hsound.request, Option.some.injEq] at hparse
      have heq : request₁ = request' := by
        simpa using hbusy.symm.trans hhandling
      rw [← heq, ← hparse]
      exact hlocal

theorem link {l l' : Link} {input : Link.Input} (hsound : codec.Sound)
    (h : Fed codec pending l) (hstep : l.step codec input = some l') : Fed codec pending l' := by
  cases input with
  | forwardRequest k n =>
      rw [Link.step, Option.some.injEq] at hstep
      subst hstep
      refine ⟨?_, h.handling⟩
      rw [Chain.stream_forward]
      exact h.stream
  | forwardResponse k n =>
      rw [Link.step, Option.some.injEq] at hstep
      exact hstep ▸ ⟨h.stream, h.handling⟩
  | receive =>
      rw [Link.step] at hstep
      split at hstep
      · rename_i q rest _ hqueue
        split at hstep
        · rename_i process left hreceived
          rw [Option.some.injEq] at hstep
          exact hstep ▸ h.received hsound hqueue hreceived
        · exact absurd hstep (by simp)
      · exact absurd hstep (by simp)
  | handle env =>
      rw [Link.step] at hstep
      split at hstep
      · rw [Option.some.injEq] at hstep
        exact hstep ▸ ⟨h.stream, fun request hbusy => absurd hbusy (by simp)⟩
      · exact absurd hstep (by simp)
  | send =>
      rw [Link.step] at hstep
      split at hstep
      · rw [Option.some.injEq] at hstep
        exact hstep ▸ ⟨h.stream, fun request hbusy => absurd hbusy (by simp)⟩
      · exact absurd hstep (by simp)
  | fail code =>
      rw [Link.step] at hstep
      split at hstep
      · rw [Option.some.injEq] at hstep
        exact hstep ▸ ⟨h.stream, fun request hbusy => absurd hbusy (by simp)⟩
      · rw [Option.some.injEq] at hstep
        exact hstep ▸ ⟨h.stream, fun request hbusy => absurd hbusy (by simp)⟩
      · exact absurd hstep (by simp)

end Fed

/-! ### What the controller's end feeds it

The buffer has a request that was made, or nothing that is still to go.  So what a `send`
puts into the queue is the rest of a request that the trace has, and it joins what has gone
before to a whole frame.
-/

namespace RemoteWorker

variable {codec : Codec} {p : Parameters} {files : Files}

/-- Everything has been sent, or a request that was made is in the buffer, whole. -/
def Posting (codec : Codec) (w : RemoteWorker) : Prop :=
  w.outgoingBuffer.unsent = [] ∨ ∃ sent ∈ w.requests, ∃ b : OutgoingBuffer,
    w.outgoingBuffer = b.setMessage (codec.serializeRequest sent.1)

theorem posting_sendRequest (w : RemoteWorker) (request : Request) (source : Option (Bytes × Bytes))
    (next : State) : (w.sendRequest codec request source next).Posting codec :=
  Or.inr ⟨(request, source), by simp [requests, sendRequest], w.outgoingBuffer, rfl⟩

theorem Posting.of_eq {w w' : RemoteWorker} (h : w.Posting codec)
    (hout : w'.outgoingBuffer = w.outgoingBuffer) (hrequests : w'.requests = w.requests) :
    w'.Posting codec := by
  unfold Posting
  rw [hout, hrequests]
  exact h

theorem Turn.posting {w w' : RemoteWorker} (h : Turn codec p files w w')
    (hw : w.Posting codec) : w'.Posting codec := by
  cases h with
  | sendWelcome => exact posting_sendRequest _ _ _ _
  | inSent => exact posting_sendRequest _ _ _ _
  | sendExecute => exact posting_sendRequest _ _ _ _
  | outSent => exact posting_sendRequest _ _ _ _
  | welcomed => exact hw.of_eq rfl (by simp [requests, decoded])
  | inReceived => exact hw.of_eq rfl (by simp [requests, decoded])
  | executed => exact hw.of_eq rfl (by simp [requests, decoded])
  | outReceived => exact hw.of_eq rfl (by simp [requests, decoded])
  | inSkipped => exact hw
  | inFinished => exact hw
  | outSkipped => exact hw
  | outFinished => exact hw
  | unimplemented => exact hw

end RemoteWorker

namespace Fed

variable {codec : Codec} {p : Parameters} {files : Files}

/-- What is put into the buffer while the link is quiet is a request that was made. -/
theorem of_posting {w : RemoteWorker} {l : Link} (hl : l.Quiet) (hposting : w.Posting codec)
    (hw : w.AsksLocally) (hfits : messagesFit codec w l = true) :
    Fed codec w.outgoingBuffer.unsent l := by
  refine ⟨?_, ?_⟩
  · rw [hl.toWorker, List.nil_append]
    rcases hposting with hnil | ⟨sent, hsent, b, hb⟩
    · exact Or.inl hnil
    · have hfit : (codec.serializeRequest sent.1).length + 4 < 2 ^ 32 := by
        simp only [messagesFit, hb, OutgoingBuffer.setMessage, List.length_append,
          Octets.length_little, Bool.and_eq_true, decide_eq_true_eq] at hfits
        omega
      refine Or.inr ⟨sent.1, hw sent hsent, hfit, ?_⟩
      rw [hb, OutgoingBuffer.unsent_setMessage b _ hfit]
  · intro request hbusy
    have hwaiting := hl.process
    rw [hbusy] at hwaiting
    exact absurd hwaiting (by simp [Process.waiting])

theorem of_dispatch {w w' : RemoteWorker} {l : Link} (hunsent : w.outgoingBuffer.unsent = [])
    (hl : l.Quiet) (h : w.dispatch codec p files = .ok w') (hw' : w'.AsksLocally)
    (hfits : messagesFit codec w' l = true) : Fed codec w'.outgoingBuffer.unsent l := by
  have hposting : w'.Posting codec :=
    RemoteWorker.dispatch_invariant (P := RemoteWorker.Posting codec)
      (fun _ _ hw hturn => hturn.posting hw) h (Or.inl hunsent)
  exact of_posting hl hposting hw' hfits

theorem send {w w' : RemoteWorker} {l : Link} {r : Except Errno Nat} {out : Bytes}
    (h : Fed codec w.outgoingBuffer.unsent l) (htidy : w.Tidy)
    (hfit : w.outgoingBuffer.admits r = true) (hok : w.send r = .ok (w', out)) :
    Fed codec w'.outgoingBuffer.unsent (l.post out) := by
  obtain ⟨b, hb, rfl⟩ := RemoteWorker.send_eq_ok hok
  refine ⟨?_, h.handling⟩
  have hstream : (l.post out).toWorker.stream ++ b.unsent
      = l.toWorker.stream ++ w.outgoingBuffer.unsent := by
    rw [(OutgoingBuffer.send_eq_ok htidy.outgoing hfit hb).2]
    simp [Link.post]
  rw [hstream]
  exact h.stream

/-- What the controller's end takes out was on its way to it. -/
theorem delivered {pending : Bytes} {l l' : Link} {r : Except Errno Bytes}
    (h : Fed codec pending l) (hdeliver : Pair.delivered l r = some l') :
    Fed codec pending l' := by
  cases r with
  | error e =>
      rw [Pair.delivered, Option.some.injEq] at hdeliver
      exact hdeliver ▸ h
  | ok data =>
      obtain ⟨-, hto, hprocess, -⟩ := InStep.deliver_spec hdeliver
      refine ⟨?_, ?_⟩
      · rw [hto]
        exact h.stream
      · rw [hprocess]
        exact h.handling

theorem receive {w w' : RemoteWorker} {l l' : Link} {data : Bytes}
    (h : Fed codec w.outgoingBuffer.unsent l) (hin : InStep codec w l)
    (hfit : w.incomingBuffer.admits (.ok data) = true) (hdeliver : l.deliver data = some l')
    (hok : w.receive codec p files (.ok data) = .ok (.ok w')) (hw' : w'.AsksLocally)
    (hfits : messagesFit codec w' l' = true) : Fed codec w'.outgoingBuffer.unsent l' := by
  obtain ⟨b, hb, ⟨-, rfl⟩ | ⟨hdone, hdispatch⟩⟩ := RemoteWorker.receive_eq_ok hok
  · exact h.delivered (r := .ok data) hdeliver
  · obtain ⟨harrived, hquiet, -⟩ := hin.complete hfit hdeliver hb hdone
    exact of_dispatch harrived.unsent hquiet hdispatch hw' hfits

end Fed

/-! ### In a system -/

namespace System

open RemoteWorker Controller

variable {codec : Codec} {p : Parameters} {hops : Nat → Nat}

/-- A worker that only asks for what is local, and its link, which it feeds. -/
def Feeds (codec : Codec) (w : RemoteWorker) (l : Link) : Prop :=
  w.AsksLocally ∧ (messagesFit codec w l = true → Fed codec w.outgoingBuffer.unsent l)

theorem fed_make (n : Nat) : Fed codec [] (Link.make n) :=
  ⟨Or.inl (by simp [Link.make]), fun _ hbusy => absurd hbusy (by simp [Link.make])⟩

theorem quiet_make (n : Nat) : (Link.make n).Quiet :=
  ⟨by simp [Link.make], by simp [Link.make], rfl⟩

/-- What the controller calls keeps a worker feeding its link. -/
theorem keeps_feeds (hp : p.Checked) : Keeps codec p (Feeds codec) where
  newcomer := by
    rintro addr n w ⟨fd, proxyIndex, rfl⟩
    have hasks : ({ make addr fd with proxyIndex := proxyIndex } : RemoteWorker).AsksLocally :=
      fun _ hsent => absurd hsent List.not_mem_nil
    have hlocal : welcomeRequest.Local := trivial
    refine ⟨hasks.sendRequest hlocal _ _, ?_⟩
    exact Fed.of_posting (quiet_make n) (posting_sendRequest _ _ _ _)
      (hasks.sendRequest hlocal _ _)
  receive := by
    intro w w' l l' data files hin hfits hw hadmits hdeliver hok
    have hasks : w'.AsksLocally := by
      obtain ⟨b, -, ⟨-, rfl⟩ | ⟨-, hdispatch⟩⟩ := receive_eq_ok hok
      · exact hw.1
      · exact dispatch_asksLocally hp hdispatch hw.1
    exact ⟨hasks, (hw.2 hfits).receive hin hadmits hdeliver hok hasks⟩
  send := by
    intro w w' l r out hin hfits hw hadmits hok
    have hfed := (hw.2 hfits).send hin.tidy hadmits hok
    obtain ⟨b, -, rfl⟩ := send_eq_ok hok
    exact ⟨hw.1, fun _ => hfed⟩
  runFrame := by
    intro w w' l frame files hin hfits hw hok
    obtain ⟨hidle, hdispatch⟩ := runFrame_eq_ok hok
    have hs : w.state = .idle := by simpa [isIdle] using hidle
    obtain ⟨hready, hquiet⟩ := hin.ready (by rw [hs]; rfl)
    have hasks := dispatch_asksLocally hp hdispatch (asksLocally_given hw.1 frame)
    exact ⟨hasks, Fed.of_dispatch (w := w.given frame) hready.unsent hquiet hdispatch hasks⟩

/-- What holds of the system in every state it reaches. -/
structure Supplied (codec : Codec) (hops : Nat → Nat) (s : System) : Prop where
  inv : Inv codec hops s
  attached : s.controller.pc.stopped = false → Attached (Feeds codec) hops s.links s.controller
  /-- Also where there is no remote worker any more. -/
  every : ∀ addr, ∃ pending, Fed codec pending (s.links addr)

theorem every_update {links : Nat → Link} (h : ∀ addr, ∃ pending, Fed codec pending (links addr))
    (addr : Nat) {l : Link} (hl : ∃ pending, Fed codec pending l) (addr' : Nat) :
    ∃ pending, Fed codec pending (Function.update links addr l addr') := by
  by_cases heq : addr' = addr
  · rw [heq, Function.update_self]
    exact hl
  · rw [Function.update_of_ne heq]
    exact h addr'

/-- A call of the controller leaves every link fed. -/
theorem Supplied.transport {s : System} {input : Controller.Input} {links : Nat → Link}
    {t : Controller} (h : Supplied codec hops s) (hrunning : s.controller.pc.stopped = false)
    (htransport : s.transport input = some links)
    (hmove : Move codec p s.controller input t) (addr : Nat) :
    ∃ pending, Fed codec pending (links addr) := by
  cases hmove with
  | @receive r files i w hpc hin hw hfit =>
      simp only [System.transport, hpc, hw, Option.map_eq_some_iff] at htransport
      obtain ⟨l, hl, rfl⟩ := htransport
      obtain ⟨pending, hfed⟩ := h.every w.addr
      exact every_update h.every w.addr ⟨pending, hfed.delivered hl⟩ addr
  | @send r i w hpc hout hw hfit =>
      have hmem := List.mem_of_getElem? hw
      simp only [System.transport, hpc, hw] at htransport
      split at htransport
      · rename_i w' out hok
        rw [Option.some.injEq] at htransport
        subst htransport
        have hfed := ((h.attached hrunning).each w hmem).2 (h.inv.fits w hmem)
        have hin := h.inv.inStep hrunning hmem
        exact every_update h.every w.addr ⟨_, hfed.send hin.tidy hfit hok⟩ addr
      · rw [Option.some.injEq] at htransport
        exact htransport ▸ h.every addr
  | _ =>
      rw [transport_eq (by simp) (by simp), Option.some.injEq] at htransport
      exact htransport ▸ h.every addr

theorem Supplied.step {s t : System} {input : Input} (hsound : codec.Sound) (hp : p.Checked)
    (h : Supplied codec hops s) (hfits : Fits codec p s input)
    (hstep : System.step codec p s input = some t) : Supplied codec hops t := by
  have hinv := h.inv.step hsound hfits hstep
  cases input with
  | controller input =>
      rw [System.step] at hstep
      split at hstep
      · rename_i links c htransport hc
        rw [Option.some.injEq] at hstep
        subst hstep
        have hmove := move_of_step hc
        have hrunning := not_stopped_of_step hc
        exact ⟨hinv, attached_of_move (keeps_feeds hp) h.inv (h.attached hrunning) hrunning
          htransport hmove, h.transport hrunning htransport hmove⟩
      · exact absurd hstep (by simp)
  | link addr input =>
      rw [System.step] at hstep
      split at hstep
      · rename_i haddr
        obtain ⟨l, hl, rfl⟩ := Option.map_eq_some_iff.mp hstep
        obtain ⟨pending, hfed⟩ := h.every addr
        refine ⟨hinv, ?_, every_update h.every addr ⟨pending, hfed.link hsound hl⟩⟩
        intro hrunning
        refine (h.attached hrunning).update haddr ?_
        rintro w hw rfl
        obtain ⟨hasks, hfeeds⟩ := (h.attached hrunning).each w hw
        exact ⟨hasks, fun _ => (hfeeds (h.inv.fits w hw)).link hsound hl⟩
      · exact absurd hstep (by simp)

/-- **In every state the system reaches, every link is fed with local requests.** -/
theorem reach_supplied (hsound : codec.Sound) (hp : p.Checked) {sockFd : Int} {fuel : Nat}
    {s : System} (h : (machine codec p sockFd fuel hops).Reach (Fits codec p) s) :
    Supplied codec hops s := by
  refine Machine.Reach.invariant ?_
    (fun s input t hs hfits hstep => hs.step hsound hp hfits hstep) h
  have hworkers : (Controller.start p sockFd fuel).remoteWorkers = [] :=
    start_of (fun c => c.remoteWorkers = []) fun _ hworkers _ _ _ _ => hworkers
  refine ⟨reach_inv hsound Machine.Reach.init, fun _ => ⟨fun _ _ => rfl, ?_⟩, ?_⟩
  · intro w hw
    have hnone : w ∈ (Controller.start p sockFd fuel).remoteWorkers := hw
    rw [hworkers] at hnone
    exact absurd hnone List.not_mem_nil
  · intro addr
    exact ⟨[], fed_make _⟩

end System

/--
**The controller's check of a pathname and the worker's agree.**  Substituting a frame
number does not change what the check says.  So whatever command line is accepted, a
remote worker only asks for pathnames and programs that pass the check, however its
session goes; and in every state the system reaches, a worker that handles a request,
whether or not it still has a remote worker, finds its pathname local.
-/
theorem pathname_checks_agree :
    (∀ s : Bytes, 0 ∉ s → ∀ n : Int, 0 ≤ n →
      isPathnameLocal (substituteParameter s n) = isPathnameLocal s) ∧
    ∀ (argv : List Argument) (o : Options), Options.parseArguments argv = .ok o →
      ∀ codec : Codec,
      (∀ (addr : Nat) (fd : Int) (w : RemoteWorker),
        (Session.machine codec o.toParameters addr fd).Reach Machine.Any w →
        ∀ sent ∈ w.requests, sent.1.Local) ∧
      (codec.Sound → ∀ (sockFd : Int) (fuel : Nat) (hops : Nat → Nat) (s : System),
        (System.machine codec o.toParameters sockFd fuel hops).Reach
          (System.Fits codec o.toParameters) s →
        ∀ (addr : Nat) (request : Request),
          (s.links addr).process = .handling request → request.Local) := by
  refine ⟨?_, ?_⟩
  · intro s hs n _
    exact isPathnameLocal_substituteParameter hs n
  · intro argv o hparse codec
    have hchecked := Options.checked_of_parseArguments hparse
    refine ⟨?_, ?_⟩
    · intro addr fd w h
      exact Session.reach_asksLocally hchecked h
    · intro hsound sockFd fuel hops s h addr request hbusy
      obtain ⟨pending, hfed⟩ := (System.reach_supplied hsound hchecked h).every addr
      exact hfed.handling request hbusy

/-! The worker has been asked to render the only frame. -/

namespace System

open Controller RemoteWorker

def argument (s : String) (h : 0 ∉ bytes s) : Argument := ⟨bytes s, h⟩

def oneFrameLine : List Argument :=
  [argument "distray" (by decide), argument "controller" (by decide), argument "1" (by decide),
    argument "render" (by decide)]

/-- Up to the point where it has read the execute request. -/
def untilAsked : List Input :=
  arrival.map .controller ++ exchange .clean welcomeRequest ++
    turn { pollin := true } [.recv (.ok (answer .clean welcomeRequest)) noFiles, .tau, .tau]
      [.assign noFiles] ++
    turn { pollout := true }
      [.tau, .send (.ok (frame (drpCodec.serializeRequest (executeRequest oneFrame 1))).length),
        .tau] [] ++
    [.link 0 .receive]

def asked : System :=
  ((machine drpCodec oneFrame 3 5 fun _ => 0).exec (Fits drpCodec oneFrame) beginning
    untilAsked).getD beginning

/-- What is accepted of the line. -/
def oneFrameOptions : Options :=
  { Options.make with
    command := .controller, frames := ⟨1, 1, 1⟩, executable := bytes "render" }

theorem pathname_checks_agree_oneFrame :
    isPathnameLocal (substituteParameter (bytes "out/%03d") 7)
      = isPathnameLocal (bytes "out/%03d") ∧
    (executeRequest oneFrame 1).Local := by
  obtain ⟨hsubstitute, hline⟩ := pathname_checks_agree
  refine ⟨hsubstitute _ (by decide) 7 (by decide), ?_⟩
  have haccepted : Options.parseArguments oneFrameLine = .ok oneFrameOptions := by decide
  obtain ⟨-, hbusy⟩ := hline oneFrameLine oneFrameOptions haccepted drpCodec
  exact hbusy drpCodec_sound 3 5 (fun _ => 0) asked
    (Machine.Run.of_replay (m := machine drpCodec oneFrame 3 5 fun _ => 0) (by decide +kernel))
    0 _ (by decide +kernel)

end System

end Distray
