/-
The work of a system comes to its end.

A system that nobody disturbs can always go on: when the controller polls, one of its
workers waits for a response, and then either something can happen elsewhere or `poll` has
something to report; and what `poll` has reported can be acted on.  As every step brings
the end of the work nearer, it is bound to come.

Three things can come in between that are none of the controller's doing, or none that it
can do anything about: a program at the other end ends, a message is larger than the length
field can say, or there is a proxy to connect to, which may take for ever.
-/
import Distray.Proofs.Advance
import Distray.Proofs.Schedule

namespace Distray

namespace Controller

open RemoteWorker

variable {codec : Codec} {p : Parameters}

/-! ### When it polls there is something to wait for

The controller only calls `poll` after it has handed out what there was to hand out and has
found somebody at work.  So somebody waits for a response, and it is that response from
which the next step can be had.
-/

theorem not_polling_nextEntry (i : Nat) : nextEntry i ≠ .polling := by
  cases i <;> simp [nextEntry]

/-- The program gets to `poll` from the head of the loop only. -/
theorem polling_of_move {s t : Controller} {input : Input} (hmove : Move codec p s input t)
    (hpc : t.pc = .polling) : s.pc = .loopHead ∧
      ∃ fd files, t = connectProxies codec p fd files (missingProxies p s.remoteWorkers) s := by
  have hgoing : Pc.polling.stopped = false := rfl
  cases hmove with
  | @connect fd files hhead => exact ⟨hhead, fd, files, rfl⟩
  | accept hreceiving =>
      rw [acceptWorker_eq] at hpc
      split at hpc
      · exact absurd hpc (by simp)
      · exact absurd hpc (by simp)
  | receive =>
      refine absurd hpc (receiveFrom_of (R := fun t => t.pc ≠ .polling) ?_ ?_ ?_)
      · exact fun pc hstopped => Pc.ne_of_stopped hgoing hstopped
      · exact fun _ _ => by simp
      · exact fun _ => pc_killWorker hgoing (by simp)
  | send =>
      refine absurd hpc (sendTo_of (R := fun t => t.pc ≠ .polling) ?_ ?_)
      · exact fun pc hstopped => Pc.ne_of_stopped hgoing hstopped
      · exact fun _ _ _ => by simp
  | skipCheck => exact absurd hpc (not_polling_nextEntry _)
  | kill => exact absurd hpc (pc_killWorker hgoing (not_polling_nextEntry _))
  | assign hhanding =>
      refine absurd hpc (after_of (R := fun t => t.pc ≠ .polling) ?_ ?_)
      · exact fun pc hstopped => Pc.ne_of_stopped hgoing hstopped
      · intro _ _
        simp [hhanding]
  | _ => exact absurd hpc (by simp)

/-- There are frames to hand out, or a worker is working. -/
def Occupied (s : Controller) : Prop := s.frames ≠ [] ∨ anyWorkerWorking s.remoteWorkers = true

/-- **When the controller polls there is still something to do.** -/
theorem reach_occupied {ok : Controller → Input → Prop} {sockFd : Int} {fuel : Nat}
    {s : Controller} (h : (machine codec p sockFd fuel).Reach ok s) (hpc : s.pc = .polling) :
    Occupied s := by
  refine Machine.Reach.invariant (P := fun s => s.pc = .polling → Occupied s) ?_ ?_ h hpc
  · intro hstart
    refine absurd hstart (start_of (fun s => s.pc ≠ .polling) ?_)
    rintro s - - - - (⟨-, hhead⟩ | ⟨-, hstopped⟩)
    · simp [hhead]
    · exact Pc.ne_of_stopped rfl hstopped
  · intro s input t _ _ hstep hpolling
    change Controller.step codec p s input = some t at hstep
    obtain ⟨hhead, fd, files, rfl⟩ := polling_of_move (move_of_step hstep) hpolling
    have hmore : Occupied s := by
      unfold Controller.step at hstep
      simp only [hhead] at hstep
      split at hstep
      · rename_i hcond
        rw [Bool.or_eq_true, Bool.not_eq_true', List.isEmpty_eq_false_iff] at hcond
        exact hcond
      · split at hstep
        · rw [Option.some.injEq] at hstep
          rw [← hstep] at hpolling
          exact absurd hpolling (by simp)
        · exact absurd hstep (by simp)
    refine connectProxies_of (R := Occupied) (fun _ _ _ hu => hu) ?_ _ _ _ s hmore
    intro u w hu _
    refine hu.imp_right fun hworking => ?_
    rw [anyWorkerWorking, join, List.any_append]
    exact Bool.or_eq_true_iff.mpr (Or.inl hworking)

/-- **When the controller polls, and has workers, one of them is not idle.** -/
theorem exists_busy {sockFd : Int} {fuel : Nat} {s : Controller}
    (h : (machine codec p sockFd fuel).Reach Machine.Any s) (hpc : s.pc = .polling)
    (hsome : s.remoteWorkers ≠ []) : ∃ w ∈ s.remoteWorkers, w.isIdle = false := by
  have hsettles : Settles s := by
    refine Machine.Reach.invariant (P := Settles) ?_ (fun _ _ _ hs _ => settles_step hs) h
    refine start_of Settles fun s hworkers _ _ _ _ _ => Or.inr ?_
    rw [hworkers]
    exact fun w hw => absurd hw List.not_mem_nil
  rcases hsettles (Or.inr hpc) with hframes | hbusy
  · have hworking := (reach_occupied h hpc).resolve_left (not_not.mpr hframes)
    obtain ⟨w, hw, hidle⟩ := List.any_eq_true.mp hworking
    exact ⟨w, hw, by simpa using hidle⟩
  · obtain ⟨w, rest, hcons⟩ := List.exists_cons_of_ne_nil hsome
    have hw : w ∈ s.remoteWorkers := by
      rw [hcons]
      exact List.mem_cons_self ..
    exact ⟨w, hw, hbusy w hw⟩

end Controller

namespace System

open RemoteWorker Controller

variable {codec : Codec} {p : Parameters} {hops : Nat → Nat}

/-! ### There is always a step

A worker that waits is waited on by somebody: by its link, by the program at the other end,
or by `poll`, which then has something true to report.  That the report is acted on is a
matter of the branch it leads to, whose call is there to be answered.
-/

/-- Bytes that are there can be received. -/
theorem exists_deliver {l : Link} (h : Readable l) : ∃ b l', l.deliver [b] = some l' := by
  rcases hqueues : l.toController with _ | ⟨q, rest⟩
  · rw [Readable, hqueues] at h
    exact absurd rfl h
  · rw [Readable, hqueues] at h
    obtain ⟨b, more, rfl⟩ := List.exists_cons_of_ne_nil h
    refine ⟨b, { l with toController := more :: rest }, ?_⟩
    rw [Link.deliver, if_neg (by simp), hqueues]
    simp [Chain.take]

theorem readable_of_deliver {l l' : Link} {b : UInt8} (h : l.deliver [b] = some l') :
    Readable l := by
  rw [Link.deliver, if_neg (by simp)] at h
  obtain ⟨c, hc, -⟩ := Option.map_eq_some_iff.mp h
  unfold Chain.take at hc
  split at hc
  · rw [if_neg (by simp)] at hc
    exact absurd hc (by simp)
  · rename_i q rest hqueues
    split at hc
    · rename_i hpre
      rw [Readable, hqueues]
      rintro rfl
      exact absurd (List.prefix_nil.mp hpre) (by simp)
    · exact absurd hc (by simp)

/-- One thing to report. -/
theorem truthful_one {s : System} {i : Nat} {w : RemoteWorker} {f : PollFlags}
    (hw : s.controller.remoteWorkers[i]? = some w) (hf : f.failed = false)
    (hevent : f.pollin = true ∨ f.pollout = true)
    (hin : f.pollin = true → Readable (s.links w.addr))
    (hout : f.pollout = true → w.outgoingBuffer.unsent ≠ []) :
    Truthful s
      ((List.replicate (s.controller.remoteWorkers.length + 1) ({} : PollFlags)).set (i + 1)
        f) := by
  have hlt := (List.getElem?_eq_some_iff.mp hw).1
  have hothers : ∀ j g, ((List.replicate (s.controller.remoteWorkers.length + 1)
      ({} : PollFlags)).set (i + 1) f)[j]? = some g → j = i + 1 ∧ g = f ∨ g = {} := by
    intro j g hg
    rw [List.getElem?_set] at hg
    split at hg
    · rename_i heq
      split at hg
      · exact Or.inl ⟨heq.symm, (Option.some.inj hg).symm⟩
      · exact absurd hg (by simp)
    · exact Or.inr (List.eq_of_mem_replicate (List.mem_of_getElem? hg))
  refine ⟨?_, ?_, ?_, ?_, ?_⟩
  · intro g hg
    rcases hothers 0 g hg with ⟨hzero, -⟩ | rfl
    · exact absurd hzero (by simp)
    · rfl
  · intro g hg
    obtain ⟨j, hj⟩ := List.mem_iff_getElem?.mp hg
    rcases hothers j g hj with ⟨-, rfl⟩ | rfl
    · exact hf
    · rfl
  · intro j g x hg hx hpollin
    rcases hothers (j + 1) g hg with ⟨heq, rfl⟩ | rfl
    · obtain rfl : j = i := Nat.succ.inj heq
      rw [hw, Option.some.injEq] at hx
      exact hx ▸ hin hpollin
    · exact absurd hpollin (by simp)
  · intro j g x hg hx hpollout
    rcases hothers (j + 1) g hg with ⟨heq, rfl⟩ | rfl
    · obtain rfl : j = i := Nat.succ.inj heq
      rw [hw, Option.some.injEq] at hx
      exact hx ▸ hout hpollout
    · exact absurd hpollout (by simp)
  · refine ⟨i, f, ?_, hevent⟩
    rw [List.getElem?_set_self]
    rw [List.length_replicate]
    omega

/-- A step of the controller is one of the system, when the links allow it. -/
theorem exists_controller {s : System} {input : Controller.Input} {links : Nat → Link}
    (hundisturbed : Undisturbed p s (.controller input))
    (htransport : s.transport input = some links)
    (hc : (s.controller.step codec p input).isSome = true) :
    ∃ input t, Undisturbed p s input ∧ step codec p s input = some t := by
  obtain ⟨c, hc⟩ := Option.isSome_iff_exists.mp hc
  exact ⟨.controller input, ⟨c, links⟩, hundisturbed, by rw [step, htransport, hc]⟩

/-- Any other call than `recv` and `send` has nothing to do with them. -/
theorem exists_alone {s : System} {input : Controller.Input}
    (hundisturbed : Undisturbed p s (.controller input))
    (hrecv : ∀ r files, input ≠ .recv r files) (hsend : ∀ r, input ≠ .send r)
    (hc : (s.controller.step codec p input).isSome = true) :
    ∃ input t, Undisturbed p s input ∧ step codec p s input = some t :=
  exists_controller hundisturbed (transport_eq hrecv hsend) hc

/-- `poll` returns with one thing to report. -/
theorem exists_poll {s : System} (hpc : s.controller.pc = .polling) {i : Nat} {w : RemoteWorker}
    {f : PollFlags} (hw : s.controller.remoteWorkers[i]? = some w) (hf : f.failed = false)
    (hevent : f.pollin = true ∨ f.pollout = true)
    (hin : f.pollin = true → Readable (s.links w.addr))
    (hout : f.pollout = true → w.outgoingBuffer.unsent ≠ []) :
    ∃ input t, Undisturbed p s input ∧ step codec p s input = some t := by
  have hpoll : Undisturbed p s (.controller (.poll 1 _)) :=
    ⟨by decide, truthful_one hw hf hevent hin hout⟩
  refine exists_alone hpoll (by simp) (by simp) ?_
  simp [Controller.step, hpc]

/--
The work is interrupted: one of the programs at the other ends has ended, a message is too
large, or there is work left and the controller has to connect to a proxy first.
-/
def Interrupted (codec : Codec) (p : Parameters) (s : System) : Prop :=
  (∃ w ∈ s.controller.remoteWorkers, ∃ code, (s.links w.addr).process = .returned code) ∨
    (s.controller.remoteWorkers.all fun w => messagesFit codec w (s.links w.addr)) = false ∨
    s.controller.pc = .loopHead ∧
      (!s.controller.frames.isEmpty || anyWorkerWorking s.controller.remoteWorkers) = true ∧
      missingProxies p s.controller.remoteWorkers ≠ []

/-- How the work can come to an end: the controller has ended, or the work is interrupted. -/
def Settled (codec : Codec) (p : Parameters) (s : System) : Prop :=
  s.controller.pc.over = true ∨ Interrupted codec p s

/-- While the controller polls, something can happen elsewhere, or there is something to report. -/
theorem exists_while_polling (hsound : codec.Sound) {sockFd : Int} {fuel : Nat} {s : System}
    (h : (machine codec p sockFd fuel hops).Reach (Fits codec p) s)
    (hsome : s.controller.remoteWorkers ≠ []) (hgoing : ¬ Settled codec p s)
    (hpc : s.controller.pc = .polling) :
    ∃ input t, Undisturbed p s input ∧ step codec p s input = some t := by
  simp only [Settled, Interrupted, not_or, not_exists, not_and] at hgoing
  obtain ⟨-, halive, -, -⟩ := hgoing
  have hrunning : s.controller.pc.stopped = false := by rw [hpc]; rfl
  have hinv := reach_inv hsound h
  obtain ⟨w, hw, hbusy⟩ := exists_busy (reach_controller h) hpc hsome
  obtain ⟨i, hi⟩ := List.mem_iff_getElem?.mp hw
  have hstirs := stirs_of_expects p (hinv.inStep hrunning hw) (reach_hungry hsound h hrunning w hw)
    (expects_of_busy (reach_controller h) hw hbusy) (halive w hw) (hinv.fits w hw)
  cases hstirs with
  | sends _ hunsent =>
      exact exists_poll (f := { pollout := true }) hpc hi rfl (Or.inr rfl)
        (fun hin => absurd hin (by simp)) fun _ => hunsent
  | receives _ hthere =>
      exact exists_poll (f := { pollin := true }) hpc hi rfl (Or.inl rfl)
        (fun _ => readable_of_deliver hthere) fun hout => absurd hout (by simp)
  | @elsewhere input l hproductive hl =>
      refine ⟨.link w.addr input, { s with links := Function.update s.links w.addr l },
        ⟨w, hw, rfl, hproductive⟩, ?_⟩
      rw [step, if_pos (hinv.objects.addrs_lt w hw), hl]
      rfl

theorem Due.exists_worker {s : System} (h : Due s) {i : Nat}
    (hi : i < toSend s.controller.pc) : ∃ w, s.controller.remoteWorkers[i]? = some w :=
  ⟨_, List.getElem?_eq_getElem (hi.trans_le h.within)⟩

/-- What `poll` has reported to be there can be received. -/
theorem exists_while_receiving (hsound : codec.Sound) {sockFd : Int} {fuel : Nat} {s : System}
    (h : (machine codec p sockFd fuel hops).Reach (Fits codec p) s) (hdue : Due s) {i : Nat}
    (hpc : s.controller.pc = .receiving (i + 1))
    (hin : (s.controller.revents (i + 1)).pollin = true) :
    ∃ input t, Undisturbed p s input ∧ step codec p s input = some t := by
  obtain ⟨w, hw⟩ := hdue.exists_worker (by rw [hpc]; exact Nat.lt_succ_self i)
  have hmem := List.mem_of_getElem? hw
  have hrunning : s.controller.pc.stopped = false := by rw [hpc]; rfl
  have hreadable := hdue.readable i w (by rw [hpc]; exact Nat.lt_succ_self i) hw hin
  obtain ⟨b, l, hl⟩ := exists_deliver hreadable
  have htidy := ((reach_inv hsound h).inStep hrunning hmem).tidy
  -- one byte always fits
  have hfit : w.incomingBuffer.admits (.ok [b]) = true := by
    have hmissing := (IncomingBuffer.needReceive_iff htidy.incoming).mp
      (reach_hungry hsound h hrunning w hmem)
    simp only [IncomingBuffer.admits, IncomingBuffer.bytesLeft_eq htidy.incoming,
      List.length_singleton, decide_eq_true_eq]
    omega
  have hsome : Undisturbed p s (.controller (.recv (.ok [b]) noFiles)) := List.cons_ne_nil b []
  have htransport : s.transport (.recv (.ok [b]) noFiles)
      = some (Function.update s.links w.addr l) := by
    simp only [transport, hpc, hw, Pair.delivered, hl, Option.map_some]
  refine exists_controller hsome htransport ?_
  simp only [Controller.step, hpc, hin, hw, hfit, if_true, Option.isSome_some]

/-- What is to be sent can be sent. -/
theorem exists_while_sending (hsound : codec.Sound) {sockFd : Int} {fuel : Nat} {s : System}
    (h : (machine codec p sockFd fuel hops).Reach (Fits codec p) s) (hdue : Due s) {i : Nat}
    (hpc : s.controller.pc = .sending (i + 1))
    (hout : (s.controller.revents (i + 1)).pollout = true) :
    ∃ input t, Undisturbed p s input ∧ step codec p s input = some t := by
  obtain ⟨w, hw⟩ := hdue.exists_worker (by rw [hpc]; exact Nat.lt_succ_self i)
  have hrunning : s.controller.pc.stopped = false := by rw [hpc]; rfl
  have hunsent := hdue.writable i w (by rw [hpc]; exact Nat.lt_succ_self i) hw hout
  have htidy := ((reach_inv hsound h).inStep hrunning (List.mem_of_getElem? hw)).tidy
  have hfit : w.outgoingBuffer.admits (.ok 1) = true := by
    have hpos := List.length_pos_iff.mpr hunsent
    rw [OutgoingBuffer.length_unsent htidy.outgoing] at hpos
    simp only [OutgoingBuffer.admits, decide_eq_true_eq]
    omega
  obtain ⟨b, out, hb, -⟩ := OutgoingBuffer.send_spec htidy.outgoing hfit
  have hok : w.send (.ok 1) = .ok ({ w with outgoingBuffer := b }, out) := by
    rw [RemoteWorker.send, hb]
  have htransport : s.transport (.send (.ok 1))
      = some (Function.update s.links w.addr ((s.links w.addr).post out)) := by
    simp only [transport, hpc, hw, hok]
  have hone : Undisturbed p s (.controller (.send (.ok 1))) := Nat.one_pos
  refine exists_controller hone htransport ?_
  simp only [Controller.step, hpc, hout, hw, hfit, if_true, Option.isSome_some]

/-- **There is always a step.** -/
theorem exists_undisturbed (hsound : codec.Sound) {sockFd : Int} {fuel : Nat} {s : System}
    (h : (machine codec p sockFd fuel hops).Reach (Fits codec p) s) (hdue : Due s)
    (hastray : s.controller.pc.astray = false) (hsome : s.controller.remoteWorkers ≠ [])
    (hgoing : ¬ Settled codec p s) :
    ∃ input t, Undisturbed p s input ∧ step codec p s input = some t := by
  have hover : s.controller.pc.over ≠ true := fun hover => hgoing (Or.inl hover)
  have htau : (s.controller.step codec p .tau).isSome = true →
      ∃ input t, Undisturbed p s input ∧ step codec p s input = some t :=
    exists_alone trivial (by simp) (by simp)
  cases hpc : s.controller.pc with
  | loopHead =>
      by_cases hmore : (!s.controller.frames.isEmpty ||
          anyWorkerWorking s.controller.remoteWorkers) = true
      · have hproxies : missingProxies p s.controller.remoteWorkers = [] :=
          not_not.mp fun hne => hgoing (Or.inr (Or.inr (Or.inr ⟨hpc, hmore, hne⟩)))
        have hconnect : Undisturbed p s (.controller (.connect (fun _ => -1) noFiles)) := hproxies
        refine exists_alone hconnect (by simp) (by simp) ?_
        simp only [Controller.step, hpc, if_pos hmore, Option.isSome_some]
      · refine htau ?_
        simp only [Controller.step, hpc, if_neg hmore, Option.isSome_some]
  | polling => exact exists_while_polling hsound h hsome hgoing hpc
  | receiving i =>
      by_cases hin : (s.controller.revents i).pollin = true
      · cases i with
        | zero =>
            have hnobody := hdue.nobody (by rw [hpc]; rfl)
            exact absurd (hnobody.symm.trans hin) (by simp)
        | succ i => exact exists_while_receiving hsound h hdue hpc hin
      · refine htau ?_
        simp only [Controller.step, hpc, if_neg hin, Option.isSome_some]
  | sending i =>
      cases i with
      | zero => exact htau (by simp only [Controller.step, hpc, Option.isSome_some])
      | succ i =>
          by_cases hout : (s.controller.revents (i + 1)).pollout = true
          · exact exists_while_sending hsound h hdue hpc hout
          · refine htau ?_
            simp only [Controller.step, hpc, if_neg hout, Option.isSome_some]
  | checking i =>
      cases i with
      | zero => exact htau (by simp only [Controller.step, hpc, Option.isSome_some])
      | succ i =>
          have hfailed := hdue.unharmed (by rw [hpc]; rfl) (i + 1)
          refine htau ?_
          simp [Controller.step, hpc, hfailed]
  | handingOut =>
      cases hframes : s.controller.frames with
      | nil => exact htau (by simp only [Controller.step, hpc, hframes, Option.isSome_some])
      | cons frame rest =>
          cases hidle : getIdleWorker s.controller.remoteWorkers with
          | none =>
              refine htau ?_
              simp only [Controller.step, hpc, hframes, hidle, Option.isSome_some]
          | some index =>
              obtain ⟨hlt, -⟩ := List.findIdx?_eq_some_iff_getElem.mp hidle
              have hw := List.getElem?_eq_getElem hlt
              have hassign : Undisturbed p s (.controller (.assign noFiles)) := trivial
              refine exists_alone hassign (by simp) (by simp) ?_
              simp only [Controller.step, hpc, hframes, hidle, hw, Option.isSome_some]
  | returned code => exact absurd (by rw [hpc]; rfl) hover
  | exited why => exact absurd (by rw [hpc]; rfl) hover
  | hung => simp [hpc, Pc.astray] at hastray
  | undefined => simp [hpc, Pc.astray] at hastray

/-! ### The end is bound to come -/

/-- What is true of a system that is getting on. -/
structure Working (codec : Codec) (p : Parameters) (hops : Nat → Nat) (sockFd : Int) (fuel : Nat)
    (s : System) : Prop where
  reach : (machine codec p sockFd fuel hops).Reach (Fits codec p) s
  due : Due s
  onCourse : s.controller.pc.astray = false
  workers : s.controller.remoteWorkers ≠ []

theorem Working.of_polling {sockFd : Int} {fuel : Nat} {s : System}
    (h : (machine codec p sockFd fuel hops).Reach (Fits codec p) s)
    (hpc : s.controller.pc = .polling) (hsome : s.controller.remoteWorkers ≠ []) :
    Working codec p hops sockFd fuel s :=
  ⟨h, .outside (by rw [hpc]; rfl) (by rw [hpc]; rfl) (by rw [hpc]; rfl), by rw [hpc]; rfl, hsome⟩

/-- A step keeps it and brings the end nearer, unless it is the end. -/
theorem Working.step {sockFd : Int} {fuel : Nat} {jobs : List Int} {s t : System} {input : Input}
    (hsound : codec.Sound) (hget : p.frames.getAll fuel = .ok jobs) (hnonneg : ∀ f ∈ jobs, 0 ≤ f)
    (h : Working codec p hops sockFd fuel s) (hundisturbed : Undisturbed p s input)
    (hstep : System.step codec p s input = some t) :
    Settled codec p t ∨ (Working codec p hops sockFd fuel t ∧ rank p t < rank p s) := by
  cases hfits : t.controller.remoteWorkers.all fun w => messagesFit codec w (t.links w.addr) with
  | false => exact Or.inl (Or.inr (Or.inr (Or.inl hfits)))
  | true =>
      have hreach : (machine codec p sockFd fuel hops).Reach (Fits codec p) t := by
        refine .step h.reach ?_ hstep
        intro u hu
        rw [hstep, Option.mem_some_iff] at hu
        exact hu ▸ hfits
      have hlogs := (reach_logged hget hnonneg h.reach).workers
      have hplace := reach_inPlace (reach_controller h.reach)
      have honCourse := not_astray_of_step hplace h.due h.onCourse hstep
      have hadvances := advances_of_step (reach_inv hsound h.reach) (fun w hw => (hlogs w hw).2)
        h.due h.workers hundisturbed hstep
      rcases hadvances with hreturned | (hover | hastray) | ⟨hdue, hsome, hlower⟩
      · exact Or.inl (Or.inr (Or.inl hreturned))
      · exact Or.inl (Or.inl hover)
      · exact absurd (honCourse.symm.trans hastray) (by simp)
      · exact Or.inr ⟨⟨hreach, hdue, honCourse, hsome⟩, hlower⟩

theorem inevitably_settled {sockFd : Int} {fuel : Nat} {jobs : List Int} {s : System}
    (hsound : codec.Sound) (hget : p.frames.getAll fuel = .ok jobs) (hnonneg : ∀ f ∈ jobs, 0 ≤ f)
    (h : Working codec p hops sockFd fuel s) :
    (machine codec p sockFd fuel hops).Inevitably (Undisturbed p) (Settled codec p) s := by
  refine Machine.Inevitably.of_rank (rank p) (Q := Working codec p hops sockFd fuel) ?_ ?_ h
  · intro t ht hgoing
    exact exists_undisturbed hsound ht.reach ht.due ht.onCourse ht.workers hgoing
  · intro t input u ht _ hundisturbed hstep
    exact ht.step hsound hget hnonneg hundisturbed hstep

end System

/--
**The work comes to its end.**  From every state in which the controller polls and has at
least one worker, as long as nobody disturbs the system: whichever steps are taken, by
whichever of the programs and in whichever order, they do not come to an end, and do not go
on for ever, without having passed a state in which the controller has ended, or a program
at the other end of a connection has, a message is too large, or there is work left and the
controller has to connect to a proxy first.
-/
theorem work_comes_to_its_end (codec : Codec) (hsound : codec.Sound) (p : Parameters)
    (sockFd : Int) (fuel : Nat) (hops : Nat → Nat) (jobs : List Int)
    (hget : p.frames.getAll fuel = .ok jobs) (hnonneg : ∀ f ∈ jobs, 0 ≤ f) (s : System)
    (h : (System.machine codec p sockFd fuel hops).Reach (System.Fits codec p) s)
    (hpc : s.controller.pc = .polling) (hsome : s.controller.remoteWorkers ≠ []) :
    (∀ t, (System.machine codec p sockFd fuel hops).Run (System.Undisturbed p) s t →
      (∀ input u, System.Undisturbed p t input → System.step codec p t input ≠ some u) →
      ∃ u, (System.machine codec p sockFd fuel hops).Run (System.Undisturbed p) s u ∧
        (System.machine codec p sockFd fuel hops).Run (System.Undisturbed p) u t ∧
        u.Settled codec p) ∧
    ∀ run : Nat → System, run 0 = s →
      (∀ n, ∃ input, System.Undisturbed p (run n) input ∧
        System.step codec p (run n) input = some (run (n + 1))) →
      ∃ n, (run n).Settled codec p := by
  have hworking := System.Working.of_polling h hpc hsome
  have hinevitable := System.inevitably_settled hsound hget hnonneg hworking
  exact ⟨fun t hrun hstuck => hinevitable.of_stuck hrun hstuck,
    fun run hstart hrun => hinevitable.of_forever run hstart hrun⟩

/-- The worker has been welcomed halfway, and its frame is still to be rendered. -/
theorem work_comes_to_its_end_halfWelcomed :
    (∀ t, (System.machine drpCodec Controller.oneFrame 3 5 fun _ => 0).Run
        (System.Undisturbed Controller.oneFrame) System.halfWelcomed t →
      (∀ input u, System.Undisturbed Controller.oneFrame t input →
        System.step drpCodec Controller.oneFrame t input ≠ some u) →
      ∃ u, (System.machine drpCodec Controller.oneFrame 3 5 fun _ => 0).Run
          (System.Undisturbed Controller.oneFrame) System.halfWelcomed u ∧
        (System.machine drpCodec Controller.oneFrame 3 5 fun _ => 0).Run
          (System.Undisturbed Controller.oneFrame) u t ∧
        u.Settled drpCodec Controller.oneFrame) ∧
    ∀ run : Nat → System, run 0 = System.halfWelcomed →
      (∀ n, ∃ input, System.Undisturbed Controller.oneFrame (run n) input ∧
        System.step drpCodec Controller.oneFrame (run n) input = some (run (n + 1))) →
      ∃ n, (run n).Settled drpCodec Controller.oneFrame :=
  work_comes_to_its_end drpCodec drpCodec_sound Controller.oneFrame 3 5 (fun _ => 0) [1]
    (by decide +kernel) (by decide) System.halfWelcomed System.reach_halfWelcomed
    (by decide +kernel) (by decide +kernel)

end Distray
