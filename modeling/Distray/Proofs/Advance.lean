/-
A system that nobody disturbs is always getting on.

Of all that can happen to the controller and its workers, some things lead to the end of
the work and some do not: connections are made, closed and lost, calls fail, `poll` says
what is not so.  Where only the former happen, every step brings the end nearer.  How
near it is has five parts, each of which counts only as long as the ones before it stay
as they are: the responses that are still to be heard, the stages of the exchanges under
way, how far the bytes under way have to go, whether what `poll` has reported is still to
be acted on, and how far the controller is from calling `poll`.
-/
import Distray.Proofs.Wakeup
import Distray.Proofs.Turns

namespace Distray

/-! ### What is left of a worker's script -/

namespace RemoteWorker

variable {codec : Codec} {p : Parameters} {files : Files}

/-- How many of the jobs a worker was given it has not heard to be done. -/
def unheard (p : Parameters) (w : RemoteWorker) : Nat :=
  (script p w.framesGiven).length - w.responses.length

theorem HasLog.responses_le {w : RemoteWorker} (h : w.HasLog p) :
    w.responses.length ≤ (script p w.framesGiven).length := by
  obtain ⟨log, pending, hlog⟩ := h
  rw [hlog.responses, hlog.script]
  simp only [List.length_append, List.length_map]
  omega

theorem unheard_dispatch {w w' : RemoteWorker} (hlog : w.HasLog p)
    (hexpects : w.state.expects ≠ none) (hok : w.dispatch codec p files = .ok w') :
    w'.unheard p < w.unheard p := by
  obtain ⟨r, -, hspoken⟩ := dispatch_heard hok hexpects
  have hheard : w'.responses = w.responses ++ [r] := by
    cases hspoken with
    | silent _ _ hheard => exact hheard
    | asking _ _ _ hheard => exact hheard
  have hle := (dispatch_hasLog hok hlog).responses_le
  rw [hheard, List.length_append, dispatch_framesGiven hok, List.length_singleton] at hle
  rw [unheard, unheard, hheard, List.length_append, dispatch_framesGiven hok,
    List.length_singleton]
  omega

theorem unheard_runFrame {w w' : RemoteWorker} {frame : Int} (hlog : w.HasLog p)
    (hok : w.runFrame codec p files frame = .ok w') :
    w'.unheard p = w.unheard p + (frameScript p frame).length := by
  obtain ⟨-, hdispatch⟩ := runFrame_eq_ok hok
  have hle := hlog.responses_le
  have hheard : w'.responses = w.responses := by
    have hgiven : (w.given frame).responses = w.responses := by
      rw [responses, responses, given, Event.history_cons]
      simp
    rw [← hgiven]
    cases dispatch_spoken hdispatch rfl with
    | silent _ _ hheard => exact hheard
    | asking _ _ _ hheard => exact hheard
  have hframes : w'.framesGiven = w.framesGiven ++ [frame] := by
    rw [dispatch_framesGiven hdispatch]
    simp [framesGiven, given]
  have hscript : (script p (w.framesGiven ++ [frame])).length
      = (script p w.framesGiven).length + (frameScript p frame).length := by
    simp only [script, List.flatMap_append, List.flatMap_singleton, List.length_append,
      List.length_cons]
    omega
  rw [unheard, unheard, hheard, hframes, hscript]
  omega

end RemoteWorker

/-! ### How far a system is from the end

The five parts are compared one after the other, and a step is free to raise what comes
after the part it lowers.  So a response that is heard may start the next exchange, and a
call of `poll` may start the next pass.  Only the first part may never be raised.
-/

namespace System

open RemoteWorker Controller

variable {codec : Codec} {p : Parameters} {hops : Nat → Nat}

/-- The sum of something over the workers and their links. -/
def total (f : RemoteWorker → Link → Nat) (s : System) : Nat :=
  (s.controller.remoteWorkers.map fun w => f w (s.links w.addr)).sum

/-- Where one worker and its link are replaced, one summand is. -/
theorem total_set {s : System} (hobj : s.controller.Objects) (f : RemoteWorker → Link → Nat)
    {c : Controller} {i : Nat} {w w' : RemoteWorker} {l : Link}
    (hw : s.controller.remoteWorkers[i]? = some w) (haddr : w'.addr = w.addr)
    (hc : c.remoteWorkers = s.controller.remoteWorkers.set i w') :
    total f ⟨c, Function.update s.links w.addr l⟩ + f w (s.links w.addr) =
      total f s + f w' l := by
  obtain ⟨before, after, hparts, hlen⟩ := Parts.exists_parts hw
  have hothers : ∀ x ∈ before ++ after, x.addr ≠ w.addr := by
    have hnodup := hobj.addrs
    rw [hparts, List.map_append, List.map_cons, List.nodup_middle, List.nodup_cons] at hnodup
    intro x hx heq
    refine hnodup.1 ?_
    rw [← heq, ← List.map_append]
    exact List.mem_map_of_mem hx
  have hbefore : before.map (fun x => f x (Function.update s.links w.addr l x.addr))
      = before.map fun x => f x (s.links x.addr) := by
    refine List.map_congr_left ?_
    intro x hx
    rw [Function.update_of_ne (hothers x (List.mem_append_left _ hx))]
  have hafter : after.map (fun x => f x (Function.update s.links w.addr l x.addr))
      = after.map fun x => f x (s.links x.addr) := by
    refine List.map_congr_left ?_
    intro x hx
    rw [Function.update_of_ne (hothers x (List.mem_append_right _ hx))]
  have hset : c.remoteWorkers = before ++ w' :: after := by
    rw [hc, hparts, ← hlen, Parts.set_parts]
  rw [total, total, hset, hparts]
  simp only [List.map_append, List.map_cons, List.sum_append, List.sum_cons, hbefore, hafter,
    haddr, Function.update_self]
  omega

/-- The jobs that nobody has been heard to have done, each frame that waits counting once more. -/
def work (p : Parameters) (s : System) : Nat :=
  (s.controller.frames.map fun f => (frameScript p f).length + 1).sum +
    total (fun w _ => w.unheard p) s

/-- How many entries the branch for `POLLIN` is still to come for. -/
def toReceive : Pc → Nat
  | .receiving i => i
  | .sending i | .checking i => i - 1
  | _ => 0

/-- How many entries the branch for `POLLOUT` is still to come for. -/
def toSend : Pc → Nat
  | .receiving i | .sending i => i
  | .checking i => i - 1
  | _ => 0

/-- Something that `poll` has reported is still to be acted on. -/
def Owing (c : Controller) : Prop :=
  (∃ i < toReceive c.pc, (c.revents (i + 1)).pollin = true) ∨
    ∃ i < toSend c.pc, (c.revents (i + 1)).pollout = true

instance (c : Controller) : Decidable (Owing c) := inferInstanceAs (Decidable (_ ∨ _))

/-- Outside a pass over the entries there is nothing left to act on. -/
theorem not_owing {c : Controller} (hreceive : toReceive c.pc = 0) (hsend : toSend c.pc = 0) :
    ¬ Owing c := by
  rw [Owing, hreceive, hsend]
  rintro (⟨i, hi, -⟩ | ⟨i, hi, -⟩)
  · exact absurd hi (Nat.not_lt_zero i)
  · exact absurd hi (Nat.not_lt_zero i)

/-- How far the end of the work is. -/
def rank (p : Parameters) (s : System) : Nat ×ₗ Nat ×ₗ Nat ×ₗ Nat ×ₗ Nat :=
  toLex (work p s, toLex (total Pair.stage s, toLex (total Pair.distance s,
    toLex (if Owing s.controller then 0 else 1, Controller.turn s.controller.pc))))

theorem rank_of_work {s t : System} (h : work p t < work p s) : rank p t < rank p s :=
  Prod.Lex.toLex_lt_toLex.mpr (Or.inl h)

/-- The workers and the queues stay as they are, and the controller gets on. -/
theorem rank_of_turn {s t : System} (hframes : t.controller.frames = s.controller.frames)
    (hworkers : t.controller.remoteWorkers = s.controller.remoteWorkers)
    (hlinks : t.links = s.links)
    (h : (¬ Owing s.controller ∧ Owing t.controller) ∨
      ((Owing t.controller ↔ Owing s.controller) ∧
        Controller.turn t.controller.pc < Controller.turn s.controller.pc)) :
    rank p t < rank p s := by
  have htotal : ∀ f, total f t = total f s := by
    intro f
    rw [total, total, hworkers, hlinks]
  have hwork : work p t = work p s := by
    rw [work, work, hframes, htotal]
  refine Prod.Lex.toLex_lt_toLex.mpr (Or.inr ⟨hwork, Prod.Lex.toLex_lt_toLex.mpr
    (Or.inr ⟨htotal _, Prod.Lex.toLex_lt_toLex.mpr (Or.inr ⟨htotal _,
      Prod.Lex.toLex_lt_toLex.mpr ?_⟩)⟩)⟩)
  rcases h with ⟨hnot, howing⟩ | ⟨hsame, hturn⟩
  · left
    simp only [if_neg hnot, if_pos howing]
    exact Nat.one_pos
  · right
    exact ⟨by simp only [hsame], hturn⟩

/-- One worker and its link get on, and its jobs stay as they are. -/
theorem rank_of_pair {s : System} (hobj : s.controller.Objects) {c : Controller} {i : Nat}
    {w w' : RemoteWorker} {l : Link} (hw : s.controller.remoteWorkers[i]? = some w)
    (haddr : w'.addr = w.addr) (hc : c.remoteWorkers = s.controller.remoteWorkers.set i w')
    (hframes : c.frames = s.controller.frames) (hunheard : w'.unheard p = w.unheard p)
    (h : (⟨w', l, .running⟩ : Pair).rank < (⟨w, s.links w.addr, .running⟩ : Pair).rank) :
    rank p ⟨c, Function.update s.links w.addr l⟩ < rank p s := by
  have hset := fun f => total_set hobj f (l := l) hw haddr hc
  have hwork : work p ⟨c, Function.update s.links w.addr l⟩ = work p s := by
    have hsum := hset fun w _ => w.unheard p
    simp only [hunheard] at hsum
    rw [work, work, Nat.add_right_cancel hsum]
    simp only [hframes]
  have hstage := hset Pair.stage
  have hdistance := hset Pair.distance
  refine Prod.Lex.toLex_lt_toLex.mpr (Or.inr ⟨hwork, Prod.Lex.toLex_lt_toLex.mpr ?_⟩)
  rcases Prod.Lex.toLex_lt_toLex.mp h with hlt | ⟨heq, hlt⟩
  · left
    simp only at hlt ⊢
    omega
  · right
    simp only at heq hlt ⊢
    refine ⟨by omega, Prod.Lex.toLex_lt_toLex.mpr (Or.inl ?_)⟩
    simp only
    omega

/-! ### What nobody disturbs

The steps that are left out are those that are somebody else's doing: a connection made or
lost, a call that fails, a report of `poll` that is not true.  Of the network's own steps
only those count that do something.
-/

/-- There are bytes at the controller's end of a link. -/
def Readable (l : Link) : Prop := l.toController.headD [] ≠ []

/-- What `poll` reports is so: nobody connects, no connection is lost, and there is something. -/
structure Truthful (s : System) (revents : List PollFlags) : Prop where
  nobody : ∀ f, revents[0]? = some f → f.pollin = false
  unharmed : ∀ f ∈ revents, f.failed = false
  readable : ∀ i f w, revents[i + 1]? = some f → s.controller.remoteWorkers[i]? = some w →
    f.pollin = true → Readable (s.links w.addr)
  writable : ∀ i f w, revents[i + 1]? = some f → s.controller.remoteWorkers[i]? = some w →
    f.pollout = true → w.outgoingBuffer.unsent ≠ []
  event : ∃ i f, revents[i + 1]? = some f ∧ (f.pollin = true ∨ f.pollout = true)

/--
The steps of a system that nobody disturbs: `poll` reports what is so, no call fails or
does nothing, nobody connects or goes away, and what happens at the other ends of the
connections gets an exchange on.
-/
def Undisturbed (p : Parameters) (s : System) : Input → Prop
  | .controller .tau | .controller (.assign _) => True
  | .controller (.connect _ _) => missingProxies p s.controller.remoteWorkers = []
  | .controller (.poll result revents) => result ≠ -1 ∧ Truthful s revents
  | .controller (.recv (.ok data) _) => data ≠ []
  | .controller (.send (.ok n)) => 0 < n
  | .link addr input => ∃ w ∈ s.controller.remoteWorkers, w.addr = addr ∧
      (⟨w, s.links addr, .running⟩ : Pair).Productive (.link input)
  | _ => False

/-- The program is between `poll` and handing out frames. -/
def inPass : Pc → Bool
  | .receiving _ | .sending _ | .checking _ => true
  | _ => false

/-- What `poll` has reported is so still, where it is still to be acted on. -/
structure Due (s : System) : Prop where
  within : toSend s.controller.pc ≤ s.controller.remoteWorkers.length
  nobody : inPass s.controller.pc = true → (s.controller.revents 0).pollin = false
  unharmed : inPass s.controller.pc = true → ∀ i, (s.controller.revents i).failed = false
  readable : ∀ i w, i < toReceive s.controller.pc → s.controller.remoteWorkers[i]? = some w →
    (s.controller.revents (i + 1)).pollin = true → Readable (s.links w.addr)
  writable : ∀ i w, i < toSend s.controller.pc → s.controller.remoteWorkers[i]? = some w →
    (s.controller.revents (i + 1)).pollout = true → w.outgoingBuffer.unsent ≠ []

theorem Due.outside {s : System} (hrecv : toReceive s.controller.pc = 0)
    (hsend : toSend s.controller.pc = 0) (hpass : inPass s.controller.pc = false) : Due s := by
  refine ⟨by omega, ?_, ?_, fun i w hi => by omega, fun i w hi => by omega⟩
  · rw [hpass]
    exact fun h => absurd h (by simp)
  · rw [hpass]
    exact fun h => absurd h (by simp)

theorem revents_eq {c c' : Controller} (h : c'.pollfds = c.pollfds) : c'.revents = c.revents := by
  funext i
  rw [Controller.revents, Controller.revents, h]

/-- Where one worker and its link are replaced, after the branch for `POLLIN`. -/
theorem Due.set {s : System} (hobj : s.controller.Objects) (h : Due s) {c : Controller} {i : Nat}
    {w w' : RemoteWorker} {l : Link} (hw : s.controller.remoteWorkers[i]? = some w)
    (hc : c.remoteWorkers = s.controller.remoteWorkers.set i w')
    (hpollfds : c.pollfds = s.controller.pollfds) (hrecv : toReceive c.pc ≤ i)
    (hsend : toSend c.pc ≤ i + 1) (hpass : inPass s.controller.pc = true)
    (hbefore : i < toSend s.controller.pc) (hbefore' : i ≤ toReceive s.controller.pc)
    (hunsent : i < toSend c.pc → (s.controller.revents (i + 1)).pollout = true →
      w'.outgoingBuffer.unsent ≠ []) :
    Due ⟨c, Function.update s.links w.addr l⟩ := by
  have hrevents := revents_eq hpollfds
  have hwithin := h.within
  refine ⟨?_, ?_, ?_, ?_, ?_⟩
  · simp only [hc, List.length_set]
    omega
  · intro _
    simp only [hrevents]
    exact h.nobody hpass
  · intro _
    simp only [hrevents]
    exact h.unharmed hpass
  · intro j x hj hx hin
    simp only [hc, hrevents] at hj hx hin ⊢
    have hne : i ≠ j := by omega
    rw [List.getElem?_set_ne hne] at hx
    rw [Function.update_of_ne (hobj.addr_ne hw hx (Ne.symm hne))]
    exact h.readable j x (by omega) hx hin
  · intro j x hj hx hout
    simp only [hc, hrevents] at hj hx hout ⊢
    by_cases hij : i = j
    · subst hij
      have hlt := (List.getElem?_eq_some_iff.mp hw).1
      rw [List.getElem?_set_self hlt, Option.some.injEq] at hx
      exact hx ▸ hunsent hj hout
    · rw [List.getElem?_set_ne hij] at hx
      exact h.writable j x (by omega) hx hout

theorem Readable.forward {k n : Nat} : ∀ {c : Chain UInt8},
    c.headD [] ≠ [] → (c.forward k n).headD [] ≠ [] := by
  intro c h
  induction k, n, c using Chain.forward.induct with
  | case1 n q q' rest =>
      rw [Chain.forward]
      intro hnil
      exact h (List.append_eq_nil_iff.mp hnil).1
  | case2 k n q rest ih => exact h
  | case3 => simpa [Chain.forward] using h

theorem Readable.put {c : Chain UInt8} {out : Bytes} (h : c.headD [] ≠ []) :
    (c.put out).headD [] ≠ [] := by
  rcases c with _ | ⟨q, _ | ⟨q', rest⟩⟩
  · exact absurd rfl h
  · intro hnil
    exact h (List.append_eq_nil_iff.mp hnil).1
  · exact h

theorem Readable.step {l l' : Link} {input : Link.Input} (h : Readable l)
    (hl : l.step codec input = some l') : Readable l' := by
  unfold Link.step at hl
  split at hl
  · rw [Option.some.injEq] at hl
    exact hl ▸ h
  · rw [Option.some.injEq] at hl
    exact hl ▸ Readable.forward h
  · split at hl
    · split at hl
      · rw [Option.some.injEq] at hl
        exact hl ▸ h
      · exact absurd hl (by simp)
    · exact absurd hl (by simp)
  · split at hl
    · rw [Option.some.injEq] at hl
      exact hl ▸ h
    · exact absurd hl (by simp)
  · split at hl
    · rw [Option.some.injEq] at hl
      exact hl ▸ Readable.put h
    · exact absurd hl (by simp)
  · split at hl
    · rw [Option.some.injEq] at hl
      exact hl ▸ h
    · rw [Option.some.injEq] at hl
      exact hl ▸ h
    · exact absurd hl (by simp)

theorem Due.link {s : System} (h : Due s) {addr : Nat} {input : Link.Input} {l : Link}
    (hl : (s.links addr).step codec input = some l) :
    Due { s with links := Function.update s.links addr l } := by
  refine ⟨h.within, h.nobody, h.unharmed, ?_, h.writable⟩
  intro i w hi hw hin
  have hreadable := h.readable i w hi hw hin
  by_cases heq : w.addr = addr
  · simp only [heq, Function.update_self]
    exact (heq ▸ hreadable).step hl
  · simp only [Function.update_of_ne heq]
    exact hreadable

/-! ### What a step comes to

A step that counts lowers the rank, and what was reported and not yet dealt with remains
true; or the program is over, or has gone astray.  The calls that concern one worker and its
link change one summand of each part, and the rest of the sums is as it was.
-/

/-- The program has stopped, or the work is nearer to its end and the rest is as it was. -/
def Advances (p : Parameters) (s t : System) : Prop :=
  (t.controller.pc.over = true ∨ t.controller.pc.astray = true) ∨
    (Due t ∧ t.controller.remoteWorkers ≠ [] ∧ rank p t < rank p s)

/-- Where `poll` is answered truthfully, nobody is looked up who is not there. -/
theorem Due.not_astray {s : System} (h : Due s) {c : Controller} {input : Controller.Input}
    (hplace : ∀ w ∈ s.controller.remoteWorkers, w.InPlace p)
    (hmove : Move codec p s.controller input c) : c.pc.astray = false := by
  refine Bool.eq_false_iff.mpr fun hastray => ?_
  obtain ⟨-, i, haccess, hnone⟩ := astray_of_move hmove hplace hastray
  have hpast := List.getElem?_eq_none_iff.mp hnone
  have hwithin := h.within
  unfold access at haccess
  split at haccess
  · rename_i k hpc
    rw [hpc] at hwithin
    simp only [toSend, Option.ite_none_right_eq_some, Option.some.injEq] at hwithin haccess
    omega
  · rename_i k hpc
    rw [hpc] at hwithin
    simp only [toSend, Option.ite_none_right_eq_some, Option.some.injEq] at hwithin haccess
    omega
  · rename_i k hpc
    have hunharmed := h.unharmed (by rw [hpc]; rfl) (k + 1)
    simp [hunharmed] at haccess
  · exact absurd haccess (by simp)

/-- The program gets on, and nothing else happens. -/
theorem advances_turn {s : System} (h : Due s) (hsome : s.controller.remoteWorkers ≠ [])
    {c : Controller} (hframes : c.frames = s.controller.frames)
    (hworkers : c.remoteWorkers = s.controller.remoteWorkers)
    (hpollfds : c.pollfds = s.controller.pollfds)
    (hrecv : toReceive c.pc ≤ toReceive s.controller.pc)
    (hsend : toSend c.pc ≤ toSend s.controller.pc)
    (hpass : inPass c.pc = true → inPass s.controller.pc = true)
    (howing : Owing s.controller → Owing c)
    (hturn : Controller.turn c.pc < Controller.turn s.controller.pc) :
    Advances p s ⟨c, s.links⟩ := by
  have hrevents := revents_eq hpollfds
  have hwithin := h.within
  refine Or.inr ⟨⟨?_, ?_, ?_, ?_, ?_⟩, ?_, rank_of_turn hframes hworkers rfl
    (Or.inr ⟨⟨?_, howing⟩, hturn⟩)⟩
  · simp only [hworkers]
    omega
  · intro hc
    simp only [hrevents]
    exact h.nobody (hpass hc)
  · intro hc
    simp only [hrevents]
    exact h.unharmed (hpass hc)
  · intro i w hi hw hin
    simp only [hworkers, hrevents] at hi hw hin
    exact h.readable i w (by omega) hw hin
  · intro i w hi hw hout
    simp only [hworkers, hrevents] at hi hw hout
    exact h.writable i w (by omega) hw hout
  · simp only [hworkers]
    exact hsome
  · rintro (⟨i, hi, hin⟩ | ⟨i, hi, hout⟩)
    · exact Or.inl ⟨i, by simp only at hi; omega, by simpa only [hrevents] using hin⟩
    · exact Or.inr ⟨i, by simp only at hi; omega, by simpa only [hrevents] using hout⟩

theorem stops_of_stopped {s : System} {links : Nat → Link} (pc : Pc) (hpc : pc.stopped = true) :
    Advances p s ⟨{ s.controller with pc := pc }, links⟩ :=
  Or.inl (Pc.over_or_astray_of_stopped hpc)

theorem set_ne_nil {s : Controller} {i : Nat} {w : RemoteWorker} (hsome : s.remoteWorkers ≠ []) :
    s.remoteWorkers.set i w ≠ [] := by
  simpa using hsome

theorem unsent_of_deliver {w : RemoteWorker} {l l' : Link} {data : Bytes} (h : InStep codec w l)
    (hne : data ≠ []) (hdeliver : l.deliver data = some l') : w.outgoingBuffer.unsent = [] := by
  have hstream := (InStep.deliver_spec hdeliver).1
  have hsome : inbound w l ≠ [] := by
    rw [inbound, hstream]
    exact List.append_ne_nil_of_right_ne_nil _ (List.append_ne_nil_of_left_ne_nil hne _)
  cases h.phase with
  | requesting _ _ _ hin => exact absurd hin hsome
  | lost _ hin => exact absurd hin hsome
  | quiet _ hout => exact (List.append_eq_nil_iff.mp hout).2
  | handling _ _ hout => exact (List.append_eq_nil_iff.mp hout).2
  | responding _ _ hout => exact (List.append_eq_nil_iff.mp hout).2
  | answering _ _ hout => exact (List.append_eq_nil_iff.mp hout).2

variable {s : System}

/-- The call of `receive` that gets something. -/
theorem advances_receive (hinv : Inv codec hops s) (hrunning : s.controller.pc.stopped = false)
    (hlogs : ∀ w ∈ s.controller.remoteWorkers, w.HasLog p) (h : Due s)
    (hsome : s.controller.remoteWorkers ≠ []) {data : Bytes} {files : Files} {i : Nat}
    {w : RemoteWorker} {l : Link} (hne : data ≠ []) (hpc : s.controller.pc = .receiving (i + 1))
    (hw : s.controller.remoteWorkers[i]? = some w)
    (hfit : w.incomingBuffer.admits (.ok data) = true)
    (hdeliver : (s.links w.addr).deliver data = some l) :
    Advances p s ⟨s.controller.receiveFrom codec p (.ok data) files i w,
      Function.update s.links w.addr l⟩ := by
  have hmem := List.mem_of_getElem? hw
  have hin := hinv.inStep hrunning hmem
  refine receiveFrom_of (R := fun c => Advances p s ⟨c, Function.update s.links w.addr l⟩)
    stops_of_stopped ?_ ?_
  · intro w' hok
    have haddr := (receive_same hok).1
    refine Or.inr ⟨h.set hinv.objects hw rfl rfl (Nat.le_refl i) (Nat.le_refl (i + 1))
      (by rw [hpc]; rfl) (by rw [hpc]; exact Nat.lt_succ_self i)
      (by rw [hpc]; exact Nat.le_succ i) ?_, set_ne_nil hsome, ?_⟩
    · intro _ hout
      have hunsent := unsent_of_deliver hin hne hdeliver
      exact absurd hunsent (h.writable i w (by rw [hpc]; exact Nat.lt_succ_self i) hw hout)
    · obtain ⟨-, hto, hprocess, -⟩ := InStep.deliver_spec hdeliver
      obtain ⟨b, hb, ⟨-, rfl⟩ | ⟨hdone, hdispatch⟩⟩ := receive_eq_ok hok
      -- a part of the response has been received
      · refine rank_of_pair hinv.objects hw haddr rfl rfl rfl (Pair.rank_of_distance ?_ ?_)
        · exact Pair.stage_eq hprocess (by rw [outbound, outbound, hto])
        · have hlower := Pair.distance_deliver hne hdeliver
          simp only [Pair.distance, hto]
          omega
      -- or all of it
      · obtain ⟨harrived, -⟩ := hin.complete hfit hdeliver hb hdone
        have hlog : HasLog p { w with incomingBuffer := b } :=
          hasLog_buffers (hlogs w hmem) b w.outgoingBuffer
        have hheard : w'.unheard p < w.unheard p :=
          unheard_dispatch (w := { w with incomingBuffer := b }) hlog harrived.expects hdispatch
        refine rank_of_work ?_
        have hset := total_set hinv.objects (fun w _ => w.unheard p) (l := l)
          (c := { s.controller with
            remoteWorkers := s.controller.remoteWorkers.set i w'
            finished := if !w.isIdle && w'.hasFinished p then w'.frame :: s.controller.finished
              else s.controller.finished
            pc := .sending (i + 1) }) hw haddr rfl
        simp only [work] at hset ⊢
        omega
  · intro hdisconnects
    exact absurd hdisconnects (by simp [IncomingBuffer.disconnects, hne])

/-- The call of `send` that sends something. -/
theorem advances_send (hinv : Inv codec hops s) (hrunning : s.controller.pc.stopped = false)
    (h : Due s) (hsome : s.controller.remoteWorkers ≠ []) {n : Nat} {i : Nat} {w w' : RemoteWorker}
    {out : Bytes} (hpos : 0 < n) (hpc : s.controller.pc = .sending (i + 1))
    (hw : s.controller.remoteWorkers[i]? = some w) (hfit : w.outgoingBuffer.admits (.ok n) = true)
    (hok : w.send (.ok n) = .ok (w', out)) :
    Advances p s ⟨s.controller.sendTo (.ok n) i w,
      Function.update s.links w.addr ((s.links w.addr).post out)⟩ := by
  have hin := hinv.inStep hrunning (List.mem_of_getElem? hw)
  have hlower := Pair.distance_send (l := s.links w.addr) hin.tidy hfit hpos hok
  have hsendTo : s.controller.sendTo (.ok n) i w = { s.controller with
      remoteWorkers := s.controller.remoteWorkers.set i w', pc := .checking (i + 1) } := by
    rw [sendTo, hok]
  obtain ⟨haddr, hunheard, hstage⟩ : w'.addr = w.addr ∧ w'.unheard p = w.unheard p ∧
      Pair.stage w' ((s.links w.addr).post out) = Pair.stage w (s.links w.addr) := by
    obtain ⟨b, hb, rfl⟩ := send_eq_ok hok
    refine ⟨rfl, rfl, Pair.stage_eq rfl ?_⟩
    rw [outbound, outbound, (OutgoingBuffer.send_eq_ok hin.tidy.outgoing hfit hb).2]
    simp [Link.post]
  rw [hsendTo]
  refine Or.inr ⟨h.set hinv.objects hw rfl rfl (Nat.le_refl i) (Nat.le_succ i)
    (by rw [hpc]; rfl) (by rw [hpc]; exact Nat.lt_succ_self i) (by rw [hpc]; exact Nat.le_refl i)
    (fun hlt => absurd hlt (Nat.lt_irrefl i)), set_ne_nil hsome, ?_⟩
  exact rank_of_pair hinv.objects hw haddr rfl rfl hunheard (Pair.rank_of_distance hstage hlower)

/-- A frame that is handed out. -/
theorem advances_assign (hinv : Inv codec hops s)
    (hlogs : ∀ w ∈ s.controller.remoteWorkers, w.HasLog p)
    (hsome : s.controller.remoteWorkers ≠ []) {files : Files} {frame : Int} {rest : List Int}
    {index : Nat} {w : RemoteWorker} (hpc : s.controller.pc = .handingOut)
    (hframes : s.controller.frames = frame :: rest)
    (hw : s.controller.remoteWorkers[index]? = some w) :
    Advances p s ⟨s.controller.handOut codec p files frame rest index w, s.links⟩ := by
  refine after_of (R := fun c => Advances p s ⟨c, s.links⟩) stops_of_stopped ?_
  intro w' hok
  refine Or.inr ⟨.outside (by simp [hpc, toReceive]) (by simp [hpc, toSend])
    (by simp [hpc, inPass]), set_ne_nil hsome, rank_of_work ?_⟩
  have hheard := unheard_runFrame (hlogs w (List.mem_of_getElem? hw)) hok
  have hset := total_set hinv.objects (fun w _ => w.unheard p) (l := s.links w.addr)
    (c := { s.controller with
      frames := rest
      remoteWorkers := s.controller.remoteWorkers.set index w'
      handed := frame :: s.controller.handed }) hw (runFrame_same hok).1 rfl
  rw [Function.update_eq_self] at hset
  simp only [work, hframes, List.map_cons, List.sum_cons, hheard] at hset ⊢
  omega

/-- A step at the other end of a connection. -/
theorem advances_link (hinv : Inv codec hops s) (hrunning : s.controller.pc.stopped = false)
    (h : Due s) (hsome : s.controller.remoteWorkers ≠ []) {input : Link.Input} {w : RemoteWorker}
    {l : Link} (hw : w ∈ s.controller.remoteWorkers)
    (hproductive : (⟨w, s.links w.addr, .running⟩ : Pair).Productive (.link input))
    (hl : (s.links w.addr).step codec input = some l) :
    (∃ code, l.process = .returned code) ∨
      Advances p s { s with links := Function.update s.links w.addr l } := by
  have hin := hinv.inStep hrunning hw
  refine (Pair.link_nearer hin hproductive hl).imp_right fun hlower => ?_
  refine Or.inr ⟨h.link hl, hsome, ?_⟩
  obtain ⟨i, hi⟩ := List.mem_iff_getElem?.mp hw
  refine rank_of_pair hinv.objects hi rfl ?_ rfl rfl hlower
  obtain ⟨hlt, rfl⟩ := List.getElem?_eq_some_iff.mp hi
  exact (List.set_getElem_self hlt).symm

/-! ### Every step -/

/-- A branch that is passed over is none that something is owed to. -/
theorem owing_skipReceive {c : Controller} {i : Nat} (hpc : c.pc = .receiving i)
    (hin : (c.revents i).pollin = false) (h : Owing c) : Owing { c with pc := .sending i } := by
  rw [Owing, hpc] at h
  rcases h with ⟨j, hj, hpollin⟩ | hsend
  · refine Or.inl ⟨j, ?_, hpollin⟩
    have hne : j + 1 ≠ i := by
      rintro rfl
      exact absurd (hin.symm.trans hpollin) (by simp)
    simp only [toReceive] at hj ⊢
    omega
  · exact Or.inr hsend

theorem owing_skipSend {c : Controller} {i : Nat} (hpc : c.pc = .sending i)
    (hout : i = 0 ∨ (c.revents i).pollout = false) (h : Owing c) :
    Owing { c with pc := .checking i } := by
  rw [Owing, hpc] at h
  rcases h with hrecv | ⟨j, hj, hpollout⟩
  · exact Or.inl hrecv
  · refine Or.inr ⟨j, ?_, hpollout⟩
    have hne : j + 1 ≠ i := by
      rintro rfl
      exact absurd ((hout.resolve_left (Nat.succ_ne_zero j)).symm.trans hpollout) (by simp)
    simp only [toSend] at hj ⊢
    omega

theorem toReceive_nextEntry (i : Nat) : toReceive (nextEntry i) = i - 1 := by
  cases i <;> rfl

theorem toSend_nextEntry (i : Nat) : toSend (nextEntry i) = i - 1 := by
  cases i <;> rfl

theorem owing_skipCheck {c : Controller} {i : Nat} (hpc : c.pc = .checking i) (h : Owing c) :
    Owing { c with pc := nextEntry i } := by
  rw [Owing, hpc] at h
  show (∃ j < toReceive (nextEntry i), (c.revents (j + 1)).pollin = true) ∨
    ∃ j < toSend (nextEntry i), (c.revents (j + 1)).pollout = true
  rw [toReceive_nextEntry, toSend_nextEntry]
  exact h

/-- Once the poll list is filled in, the events of an entry are those reported for it. -/
theorem revents_of_poll {c : Controller} {sockFd : Int} {ws : List RemoteWorker}
    {revents : List PollFlags}
    (hpollfds : c.pollfds
      = setRevents (Pollfd.listening sockFd :: ws.map RemoteWorker.fillPollfd) revents)
    (hlen : revents.length = ws.length + 1) (i : Nat) :
    c.revents i = (revents[i]?).getD {} := by
  rw [Controller.revents, hpollfds]
  simp only [setRevents, List.getElem?_zipWith]
  cases hflags : revents[i]? with
  | none => split <;> simp_all
  | some f =>
      have hlt : i < (Pollfd.listening sockFd :: ws.map RemoteWorker.fillPollfd).length := by
        have hi := (List.getElem?_eq_some_iff.mp hflags).1
        simp only [List.length_cons, List.length_map]
        omega
      rw [List.getElem?_eq_getElem hlt]
      rfl

/-- What a truthful `poll` reports is what is due. -/
theorem due_poll {c : Controller} {revents : List PollFlags} (h : Truthful s revents)
    (hworkers : c.remoteWorkers = s.controller.remoteWorkers)
    (hpc : c.pc = .receiving s.controller.remoteWorkers.length)
    (hentry : ∀ i, c.revents i = (revents[i]?).getD {}) : Due ⟨c, s.links⟩ := by
  have hflags : ∀ i, (c.revents (i + 1)).pollin = true ∨ (c.revents (i + 1)).pollout = true →
      ∃ f, revents[i + 1]? = some f ∧ c.revents (i + 1) = f := by
    intro i hset
    rw [hentry] at hset ⊢
    cases hf : revents[i + 1]? with
    | none => simp [hf] at hset
    | some f => exact ⟨f, rfl, rfl⟩
  refine ⟨?_, ?_, ?_, ?_, ?_⟩
  · simp only [hpc, hworkers]
    exact Nat.le_refl _
  · intro _
    show (c.revents 0).pollin = false
    rw [hentry]
    cases hf : revents[0]? with
    | none => rfl
    | some f => exact h.nobody f hf
  · intro _ i
    show (c.revents i).failed = false
    rw [hentry]
    cases hf : revents[i]? with
    | none => rfl
    | some f => exact h.unharmed f (List.mem_of_getElem? hf)
  · intro i w _ hw hin
    obtain ⟨f, hf, heq⟩ := hflags i (Or.inl hin)
    simp only [hworkers] at hw
    exact h.readable i f w hf hw (heq ▸ hin)
  · intro i w _ hw hout
    obtain ⟨f, hf, heq⟩ := hflags i (Or.inr hout)
    simp only [hworkers] at hw
    exact h.writable i f w hf hw (heq ▸ hout)

/-- And there is something that is due, so the pass will not be for nothing. -/
theorem advances_poll (hsome : s.controller.remoteWorkers ≠ []) {result : Int}
    {revents : List PollFlags} (hpc : s.controller.pc = .polling) (h : Truthful s revents)
    (hlen : revents.length = s.controller.remoteWorkers.length + 1) :
    Advances p s ⟨{ s.controller with
      result := result
      pollfds := setRevents (Pollfd.listening s.controller.sockFd ::
        s.controller.remoteWorkers.map RemoteWorker.fillPollfd) revents
      pc := .receiving s.controller.remoteWorkers.length }, s.links⟩ := by
  generalize hc : ({ s.controller with
      result := result
      pollfds := setRevents (Pollfd.listening s.controller.sockFd ::
        s.controller.remoteWorkers.map RemoteWorker.fillPollfd) revents
      pc := .receiving s.controller.remoteWorkers.length } : Controller) = c
  have hentry := revents_of_poll (c := c) (by rw [← hc]) hlen
  have hworkers : c.remoteWorkers = s.controller.remoteWorkers := by rw [← hc]
  have hpc' : c.pc = .receiving s.controller.remoteWorkers.length := by rw [← hc]
  refine Or.inr ⟨due_poll h hworkers hpc' hentry, ?_, rank_of_turn (by rw [← hc]) hworkers rfl
    (Or.inl ⟨?_, ?_⟩)⟩
  · simp only [hworkers]
    exact hsome
  · exact not_owing (by rw [hpc]; rfl) (by rw [hpc]; rfl)
  · obtain ⟨i, f, hf, hevent⟩ := h.event
    have hlt : i < s.controller.remoteWorkers.length := by
      have hi := (List.getElem?_eq_some_iff.mp hf).1
      omega
    have hrevents : c.revents (i + 1) = f := by
      rw [hentry, hf]
      rfl
    show Owing c
    rw [Owing, hpc']
    rcases hevent with hin | hout
    · exact Or.inl ⟨i, hlt, hrevents ▸ hin⟩
    · exact Or.inr ⟨i, hlt, hrevents ▸ hout⟩

/-- The connections to proxies, where there are none to make. -/
theorem advances_connect (h : Due s) (hsome : s.controller.remoteWorkers ≠ []) {fd : Nat → Int}
    {files : Files} (hpc : s.controller.pc = .loopHead)
    (hproxies : missingProxies p s.controller.remoteWorkers = []) :
    Advances p s ⟨connectProxies codec p fd files
      (missingProxies p s.controller.remoteWorkers) s.controller, s.links⟩ := by
  rw [hproxies, connectProxies]
  refine advances_turn h hsome rfl rfl rfl (Nat.zero_le _) (Nat.zero_le _)
    (fun hpass => absurd hpass (by simp [inPass])) ?_ ?_
  · exact fun howing => absurd howing (not_owing (by rw [hpc]; rfl) (by rw [hpc]; rfl))
  · rw [hpc]
    exact Nat.one_pos

theorem advances_skipReceive (h : Due s) (hsome : s.controller.remoteWorkers ≠ []) {i : Nat}
    (hpc : s.controller.pc = .receiving i) (hin : (s.controller.revents i).pollin = false) :
    Advances p s ⟨{ s.controller with pc := .sending i }, s.links⟩ := by
  refine advances_turn h hsome rfl rfl rfl ?_ ?_ (fun _ => by rw [hpc]; rfl)
    (owing_skipReceive hpc hin) ?_
  · rw [hpc]
    exact Nat.sub_le i 1
  · rw [hpc]
    exact Nat.le_refl i
  · rw [hpc]
    exact Nat.lt_succ_self (3 * i + 4)

theorem advances_skipSend (h : Due s) (hsome : s.controller.remoteWorkers ≠ []) {i : Nat}
    (hpc : s.controller.pc = .sending i)
    (hout : i = 0 ∨ (s.controller.revents i).pollout = false) :
    Advances p s ⟨{ s.controller with pc := .checking i }, s.links⟩ := by
  refine advances_turn h hsome rfl rfl rfl ?_ ?_ (fun _ => by rw [hpc]; rfl)
    (owing_skipSend hpc hout) ?_
  · rw [hpc]
    exact Nat.le_refl (i - 1)
  · rw [hpc]
    exact Nat.sub_le i 1
  · rw [hpc]
    exact Nat.lt_succ_self (3 * i + 3)

theorem advances_skipCheck (h : Due s) (hsome : s.controller.remoteWorkers ≠ []) {i : Nat}
    (hpc : s.controller.pc = .checking i) :
    Advances p s ⟨{ s.controller with pc := nextEntry i }, s.links⟩ := by
  refine advances_turn h hsome rfl rfl rfl ?_ ?_ (fun _ => by rw [hpc]; rfl)
    (owing_skipCheck hpc) ?_
  · rw [hpc]
    exact Nat.le_of_eq (toReceive_nextEntry i)
  · rw [hpc]
    exact Nat.le_of_eq (toSend_nextEntry i)
  · rw [hpc]
    exact turn_nextEntry i

/-- There is nothing to hand out, or nobody to hand it to. -/
theorem advances_nextTurn (h : Due s) (hsome : s.controller.remoteWorkers ≠ [])
    (hpc : s.controller.pc = .handingOut) :
    Advances p s ⟨{ s.controller with pc := .loopHead }, s.links⟩ := by
  refine advances_turn h hsome rfl rfl rfl (Nat.zero_le _) (Nat.zero_le _)
    (fun hpass => absurd hpass (by simp [inPass])) ?_ ?_
  · exact fun howing => absurd howing (not_owing (by rw [hpc]; rfl) (by rw [hpc]; rfl))
  · rw [hpc]
    exact Nat.lt_succ_self 1

/-- A call of the controller, with what it does to the links. -/
theorem advances_of_move (hinv : Inv codec hops s)
    (hlogs : ∀ w ∈ s.controller.remoteWorkers, w.HasLog p) (h : Due s)
    (hsome : s.controller.remoteWorkers ≠ []) {input : Controller.Input} {c : Controller}
    {links : Nat → Link} (hrunning : s.controller.pc.stopped = false)
    (hundisturbed : Undisturbed p s (.controller input))
    (htransport : s.transport input = some links) (hmove : Move codec p s.controller input c) :
    Advances p s ⟨c, links⟩ := by
  have hsame : (∀ r files, input ≠ .recv r files) → (∀ r, input ≠ .send r) → links = s.links := by
    intro hrecv hsend
    rw [transport_eq hrecv hsend, Option.some.injEq] at htransport
    exact htransport.symm
  cases hmove with
  | quit => exact Or.inl (Or.inl rfl)
  | connect hpc =>
      obtain rfl := hsame (by simp) (by simp)
      exact advances_connect h hsome hpc hundisturbed
  | pollFailed => exact absurd rfl hundisturbed.1
  | polled hpc hresult hlen =>
      obtain rfl := hsame (by simp) (by simp)
      exact advances_poll hsome hpc hundisturbed.2 hlen
  | skipReceive hpc hin =>
      obtain rfl := hsame (by simp) (by simp)
      exact advances_skipReceive h hsome hpc hin
  | accept => exact absurd hundisturbed id
  | receiveOutside => exact Or.inl (Or.inr rfl)
  | @receive r files i w hpc hin hw hfit =>
      cases r with
      | error e => exact absurd hundisturbed id
      | ok data =>
          simp only [transport, hpc, hw, Option.map_eq_some_iff] at htransport
          obtain ⟨l, hl, rfl⟩ := htransport
          exact advances_receive hinv hrunning hlogs h hsome hundisturbed hpc hw hfit hl
  | skipSend hpc hout =>
      obtain rfl := hsame (by simp) (by simp)
      exact advances_skipSend h hsome hpc hout
  | sendOutside => exact Or.inl (Or.inr rfl)
  | @send r i w hpc hout hw hfit =>
      cases r with
      | error e => exact absurd hundisturbed id
      | ok n =>
          simp only [transport, hpc, hw] at htransport
          split at htransport
          · rename_i w' out hok
            rw [Option.some.injEq] at htransport
            subst htransport
            exact advances_send hinv hrunning h hsome hundisturbed hpc hw hfit hok
          · rename_i e hok
            rw [sendTo, hok]
            exact Or.inl (Or.inl rfl)
  | skipCheck hpc hok =>
      obtain rfl := hsame (by simp) (by simp)
      exact advances_skipCheck h hsome hpc
  | @kill i hpc hfailed =>
      have hunharmed := h.unharmed (by rw [hpc]; rfl) (i + 1)
      exact absurd (hunharmed.symm.trans hfailed) (by simp)
  | assign hpc hframes hidle hw =>
      obtain rfl := hsame (by simp) (by simp)
      exact advances_assign hinv hlogs hsome hpc hframes hw
  | nextTurn hpc =>
      obtain rfl := hsame (by simp) (by simp)
      exact advances_nextTurn h hsome hpc

/-- **A step of a system that nobody disturbs brings the end of the work nearer.** -/
theorem advances_of_step (hinv : Inv codec hops s)
    (hlogs : ∀ w ∈ s.controller.remoteWorkers, w.HasLog p) (h : Due s)
    (hsome : s.controller.remoteWorkers ≠ []) {t : System} {input : Input}
    (hundisturbed : Undisturbed p s input) (hstep : System.step codec p s input = some t) :
    (∃ w ∈ t.controller.remoteWorkers, ∃ code, (t.links w.addr).process = .returned code) ∨
      Advances p s t := by
  cases input with
  | link addr input =>
      obtain ⟨w, hw, rfl, hproductive⟩ := hundisturbed
      rw [System.step] at hstep
      split at hstep
      · obtain ⟨l, hl, rfl⟩ := Option.map_eq_some_iff.mp hstep
        by_cases hrunning : s.controller.pc.stopped = true
        · exact Or.inr (Or.inl (Pc.over_or_astray_of_stopped hrunning))
        · have hgoing : s.controller.pc.stopped = false := by simpa using hrunning
          refine (advances_link hinv hgoing h hsome hw hproductive hl).imp_left ?_
          rintro ⟨code, hcode⟩
          exact ⟨w, hw, code, by simpa only [Function.update_self] using hcode⟩
      · exact absurd hstep (by simp)
  | controller input =>
      rw [System.step] at hstep
      split at hstep
      case h_2 => exact absurd hstep (by simp)
      rename_i links c htransport hc
      rw [Option.some.injEq] at hstep
      subst hstep
      exact Or.inr (advances_of_move hinv hlogs h hsome (not_stopped_of_step hc) hundisturbed
        htransport (move_of_step hc))

theorem not_astray_of_step (hplace : ∀ w ∈ s.controller.remoteWorkers, w.InPlace p) (h : Due s)
    (hastray : s.controller.pc.astray = false) {t : System} {input : Input}
    (hstep : System.step codec p s input = some t) : t.controller.pc.astray = false := by
  cases input with
  | link addr input =>
      rw [System.step] at hstep
      split at hstep
      · obtain ⟨l, -, rfl⟩ := Option.map_eq_some_iff.mp hstep
        exact hastray
      · exact absurd hstep (by simp)
  | controller input =>
      rw [System.step] at hstep
      split at hstep
      case h_2 => exact absurd hstep (by simp)
      rename_i links c htransport hc
      rw [Option.some.injEq] at hstep
      subst hstep
      exact h.not_astray hplace (move_of_step hc)

end System

end Distray
