/-
`dispatch` always comes to rest.

Between two calls a worker is idle or waits for a response, and where it waits for the
response to a copy, its index is that of the copy.  Both are kept by every turn, so the
states that are not implemented are never entered and the index is in range when the
response is handled.  From there the loop ends, and with a successful response of the
expected type only a local file that fails can keep it from going on to the next rest.

In the controller this makes `run_frame` a call that is never refused: the worker is
idle when it is picked, and is not idle when the call returns, so each turn of the loop
that hands out frames takes one off the deque.
-/
import Distray.Proofs.Conservation
import Distray.Proofs.Script
import Distray.Proofs.Settled

namespace Distray

namespace RemoteWorker

variable {codec : Codec} {p : Parameters} {files : Files}

/-! ### What every turn keeps -/

/-- The state has a case, and the index is that of a copy where its response is expected. -/
structure InPlace (p : Parameters) (w : RemoteWorker) : Prop where
  implemented : w.state.implemented = true
  ins : w.state.expects = some .copyIn → w.stateIndex < p.inCopies.length
  outs : w.state.expects = some .copyOut → w.stateIndex < p.outCopies.length

theorem Turn.inPlace {w w' : RemoteWorker} (h : Turn codec p files w w') (hw : w.InPlace p) :
    w'.InPlace p := by
  refine ⟨h.implemented hw.implemented, ?_, ?_⟩
  · intro hexpects
    cases h with
    | inSent _ _ hcopy => exact (List.getElem?_eq_some_iff.mp hcopy).1
    | inSkipped hpass hs => cases hpass <;> simp [hs, State.expects] at hexpects
    | inFinished hpass => cases hpass <;> simp [State.expects] at hexpects
    | inReceived hpass => cases hpass <;> simp [State.expects] at hexpects
    | outSkipped hs => simp [hs, State.expects] at hexpects
    | unimplemented => exact hw.ins hexpects
    | _ => simp [sendRequest, State.expects] at hexpects
  · intro hexpects
    cases h with
    | outSent _ hcopy => exact (List.getElem?_eq_some_iff.mp hcopy).1
    | inSent hpass => cases hpass <;> simp [sendRequest, State.expects] at hexpects
    | inSkipped hpass hs => cases hpass <;> simp [hs, State.expects] at hexpects
    | inFinished hpass => cases hpass <;> simp [State.expects] at hexpects
    | inReceived hpass => cases hpass <;> simp [State.expects] at hexpects
    | outSkipped hs => simp [hs, State.expects] at hexpects
    | unimplemented => exact hw.outs hexpects
    | _ => simp [sendRequest, State.expects] at hexpects

theorem inPlace_make (addr : Nat) (fd : Int) : (make addr fd).InPlace p :=
  ⟨rfl, by simp [make, State.expects], by simp [make, State.expects]⟩

theorem inPlace_given (w : RemoteWorker) (frame : Int) : (w.given frame).InPlace p :=
  ⟨rfl, by simp [given, State.expects], by simp [given, State.expects]⟩

theorem InPlace.incoming {w : RemoteWorker} (h : w.InPlace p) (b : IncomingBuffer) :
    { w with incomingBuffer := b }.InPlace p := ⟨h.implemented, h.ins, h.outs⟩

theorem InPlace.outgoing {w : RemoteWorker} (h : w.InPlace p) (b : OutgoingBuffer) :
    { w with outgoingBuffer := b }.InPlace p := ⟨h.implemented, h.ins, h.outs⟩

theorem dispatch_inPlace {w w' : RemoteWorker} (h : w.dispatch codec p files = .ok w')
    (hw : w.InPlace p) : w'.InPlace p :=
  dispatch_invariant (fun _ _ hw hturn => hturn.inPlace hw) h hw

/-! ### How `dispatch` ends

There are four ways for a call to end, and three of them have to be excluded where nothing
unusual has happened: it goes on for ever, looks outside a vector, or ends the program.  The
first two never happen; the last only where a file or a response gives the reason.
-/

/-- A file on the controller's side could not be read or written. -/
inductive LocalFailure (files : Files) : Exit → Prop
  | unreadable {pathname : Bytes} (h : readFile files pathname = none) :
      LocalFailure files (.unreadable pathname)
  | unwritable {pathname content : Bytes} (h : writeFile files pathname content = false) :
      LocalFailure files .copyFailed

/-- The response that the worker waits for is in the buffer, and is a success. -/
def WellAnswered (codec : Codec) (w : RemoteWorker) : Prop :=
  ∃ r, codec.parseResponse w.incomingBuffer.getMessage = some r ∧
    w.state.expects = some r.requestType ∧
    match r.requestType with
    | .welcome => True
    | .copyIn => r.copyInResponse.success = true
    | .execute => r.executeResponse.status = 0
    | .copyOut => r.copyOutResponse.success = true

theorem Stops.local_of_immediate {w : RemoteWorker} {why : Exit}
    (h : Stops codec p files w (.exit why)) (himm : w.state.immediate = true) :
    LocalFailure files why := by
  have hexpects := expects_of_immediate himm
  cases h with
  | unreadable _ _ _ _ hread => exact .unreadable hread
  | dispatchedIdle hs => simp [hs, State.immediate] at himm
  | undecodable hs => exact absurd (hs.symm.trans hexpects) (by simp)
  | unexpectedType hs => exact absurd (hs.symm.trans hexpects) (by simp)
  | copyInFailed hpass hs => cases hpass <;> simp [hs, State.immediate] at himm
  | executeFailed hs => simp [hs, State.immediate] at himm
  | copyOutFailed hs => simp [hs, State.immediate] at himm

theorem Stops.local_of_answered {w : RemoteWorker} {why : Exit}
    (h : Stops codec p files w (.exit why)) (hanswered : w.WellAnswered codec) :
    LocalFailure files why := by
  obtain ⟨r, hparse, hexpects, hsuccess⟩ := hanswered
  cases h with
  | unreadable _ _ _ _ hread => exact .unreadable hread
  | dispatchedIdle hs => simp [hs, State.expects] at hexpects
  | undecodable _ hnone => exact absurd (hparse.symm.trans hnone) (by simp)
  | unexpectedType hs hsome htype =>
      rw [hparse, Option.some.injEq] at hsome
      rw [hexpects, Option.some.injEq] at hs
      exact absurd (hsome ▸ hs) htype
  | copyInFailed _ _ hsome htype hfailed =>
      rw [hparse, Option.some.injEq] at hsome
      subst hsome
      simp only [htype, hfailed, Bool.false_eq_true] at hsuccess
  | executeFailed _ hsome htype hstatus =>
      rw [hparse, Option.some.injEq] at hsome
      subst hsome
      simp only [htype] at hsuccess
      exact absurd hsuccess hstatus
  | copyOutFailed _ hsome htype _ hfail =>
      rw [hparse, Option.some.injEq] at hsome
      subst hsome
      simp only [htype] at hsuccess
      rcases hfail with hfail | hfail
      · rw [hsuccess] at hfail
        exact absurd hfail (by simp)
      · exact .unwritable hfail

/-- What `dispatch` comes to. -/
structure ComesToRest (codec : Codec) (p : Parameters) (files : Files) (w : RemoteWorker) :
    Prop where
  /-- The loop ends. -/
  ends : ∀ fuel, dispatchFuel p ≤ fuel → w.dispatchLoop codec p files fuel ≠ .hang
  /-- No vector is accessed outside. -/
  defined : w.dispatch codec p files ≠ .undefined
  /-- It returns in `IDLE` or where a response is awaited. -/
  rests : ∀ w', w.dispatch codec p files = .ok w' → w'.state.resting = true ∧ w'.InPlace p
  /-- It goes through no state that is not implemented. -/
  passes : ∀ w', Relation.ReflTransGen (fun a b => a.dispatchStep codec p files = .ok b) w w' →
    w'.state.implemented = true
  /-- It returns, unless it was given nothing to act on or a local file fails. -/
  returns : w.state.immediate = true ∨ w.WellAnswered codec →
    (∃ w', w.dispatch codec p files = .ok w') ∨
      ∃ why, w.dispatch codec p files = .exit why ∧ LocalFailure files why

theorem InPlace.ne {w : RemoteWorker} (h : w.InPlace p) : w.state ≠ .sendCopyOutNonFrameFile := by
  intro hs
  have himpl := h.implemented
  rw [hs] at himpl
  exact absurd himpl (by decide)

theorem InPlace.dispatch_ne_undefined {w : RemoteWorker} (h : w.InPlace p) :
    w.dispatch codec p files ≠ .undefined := by
  intro hundefined
  obtain ⟨w₁, hw₁, hstops, -⟩ := dispatch_stops (fun _ _ hw hturn => Turn.inPlace hturn hw)
    hundefined (by simp) (by simp) h
  cases hstops with
  | pastTheEnd hs _ _ hend =>
      have hlt := hw₁.outs (by rw [hs]; rfl)
      rw [List.getElem?_eq_none_iff] at hend
      omega

/-- **From wherever a worker can be, `dispatch` comes to rest.** -/
theorem InPlace.comesToRest {w : RemoteWorker} (h : w.InPlace p) :
    w.ComesToRest codec p files where
  ends fuel hfuel := by
    have hle := turnsLeft_le (p := p) w
    exact dispatchLoop_ne_hang fuel w (by omega) h.ne
  defined := h.dispatch_ne_undefined
  rests w' hok := ⟨dispatch_resting hok h.implemented, dispatch_inPlace hok h⟩
  passes w' hturns := by
    have hplace : w'.InPlace p := by
      induction hturns with
      | refl => exact h
      | tail _ hstep ih => exact (turn_of_dispatchStep hstep).inPlace ih
    exact hplace.implemented
  returns hready := by
    cases hend : w.dispatch codec p files with
    | ok w' => exact Or.inl ⟨w', rfl⟩
    | exit why =>
        refine Or.inr ⟨why, rfl, ?_⟩
        obtain ⟨w₁, -, hstops, hfirst⟩ := dispatch_stops (P := fun _ => True)
          (fun _ _ _ _ => trivial) hend (by simp) (by simp) trivial
        rcases hfirst with rfl | himm
        · rcases hready with himm | hanswered
          · exact hstops.local_of_immediate himm
          · exact hstops.local_of_answered hanswered
        · exact hstops.local_of_immediate himm
    | hang => exact absurd hend (dispatch_ne_hang h.ne)
    | undefined => exact absurd hend h.dispatch_ne_undefined

end RemoteWorker

/-! ### In a session -/

namespace Session

open RemoteWorker

variable {codec : Codec} {p : Parameters}

theorem reach_inPlace {ok : RemoteWorker → Input → Prop} {addr : Nat} {fd : Int}
    {w : RemoteWorker} (h : (machine codec p addr fd).Reach ok w) : w.InPlace p := by
  refine Machine.Reach.invariant (P := InPlace p) (inPlace_make addr fd) ?_ h
  intro w input w' hw _ hstep
  rcases step_cases hstep with ⟨b, b', rfl⟩ | ⟨b, files, hdispatch⟩ | ⟨frame, files, -, hdispatch⟩
  · exact (hw.incoming b).outgoing b'
  · exact dispatch_inPlace hdispatch (hw.incoming b)
  · exact dispatch_inPlace hdispatch (inPlace_given w frame)

end Session

/-! ### In the controller

`run_frame` ends the program for a worker that is not idle.  The controller has just looked
for an idle one when it calls it, so this never happens; that is a matter of the branch, and
not of the run.
-/

namespace Controller

open RemoteWorker

variable {codec : Codec} {p : Parameters}

theorem upheld_inPlace : Upheld codec p (fun _ => True) (InPlace p) where
  newcomer := by
    rintro addr w ⟨fd, proxyIndex, rfl⟩
    exact ⟨rfl, by simp [sendRequest, State.expects], by simp [sendRequest, State.expects]⟩
  incoming b hw := hw.incoming b
  outgoing b hw := hw.outgoing b
  dispatch hw h := dispatch_inPlace h hw
  runFrame _ _ h := dispatch_inPlace (runFrame_eq_ok h).2 (inPlace_given _ _)
  frame _ _ := trivial

theorem dispatch_ne_notIdle (w : RemoteWorker) {files : Files} :
    w.dispatch codec p files ≠ .exit .notIdle := by
  intro h
  obtain ⟨w₁, -, hstops, -⟩ := dispatch_stops (P := fun _ => True) (fun _ _ _ _ => trivial) h
    (by simp) (by simp) trivial
  cases hstops

theorem receive_ne_notIdle (w : RemoteWorker) {r : Except Errno Bytes} {files : Files} :
    w.receive codec p files r ≠ .exit .notIdle := by
  intro h
  rcases receive_exit h with hbuffer | ⟨b, -, -, hdispatch⟩
  · exact absurd (IncomingBuffer.receive_exit hbuffer) (by decide)
  · exact dispatch_ne_notIdle _ hdispatch

theorem after_ne {α : Type} {s : Controller} {x : Outcome α} {f : α → Controller} {why : Exit}
    (hx : x ≠ .exit why) (hf : ∀ a, x = .ok a → (f a).pc ≠ .exited why) :
    (s.after x f).pc ≠ .exited why := by
  cases x with
  | ok a => exact hf a rfl
  | exit why' =>
      intro h
      have hsame : why' = why := Pc.exited.inj h
      exact hx (by rw [hsame])
  | hang => exact fun h => Pc.noConfusion h
  | undefined => exact fun h => Pc.noConfusion h

theorem killWorker_ne {s : Controller} {i index : Nat} {next : Pc} {why : Exit}
    (hnext : next ≠ .exited why) : (s.killWorker i index next).pc ≠ .exited why := by
  unfold killWorker
  split
  · exact fun h => Pc.noConfusion h
  · exact hnext

theorem connectProxies_ne {fd : Nat → Int} {files : Files} {why : Exit} :
    ∀ (ks : List Nat) (s : Controller),
      (connectProxies codec p fd files ks s).pc ≠ .exited why := by
  intro ks
  induction ks with
  | nil => intro s h; exact Pc.noConfusion h
  | cons k rest ih =>
      intro s
      rw [connectProxies_cons]
      split
      · exact fun h => Pc.noConfusion h
      · exact ih _

theorem nextEntry_ne {i : Nat} {why : Exit} : nextEntry i ≠ .exited why := by
  cases i <;> exact fun h => Pc.noConfusion h

/-- No step ends in the message about a worker that is not idle. -/
theorem pc_ne_notIdle {s t : Controller} {input : Input} (h : Move codec p s input t) :
    t.pc ≠ .exited .notIdle := by
  cases h with
  | connect => exact connectProxies_ne _ _
  | accept =>
      rw [acceptWorker_eq]
      split <;> exact fun h => Pc.noConfusion h
  | receive =>
      refine after_ne (receive_ne_notIdle _) ?_
      intro res _
      cases res with
      | ok w' => exact fun h => Pc.noConfusion h
      | error e =>
          cases e with
          | ECONNRESET => exact killWorker_ne fun h => Pc.noConfusion h
          | other code => exact fun h => Pc.noConfusion h
  | send =>
      unfold sendTo
      split <;> exact fun h => Pc.noConfusion h
  | skipCheck => exact nextEntry_ne
  | kill => exact killWorker_ne nextEntry_ne
  | @assign files frame rest index w hpc hframes hidle hw =>
      have hpicked := getIdleWorker_isIdle hidle hw
      refine after_ne ?_ ?_
      · rw [runFrame, if_pos hpicked]
        exact dispatch_ne_notIdle _
      · intro w' _ h
        have hgoing : s.pc = .exited .notIdle := h
        rw [hpc] at hgoing
        exact Pc.noConfusion hgoing
  | _ => exact fun h => Pc.noConfusion h

theorem getAllFrom_ne_exit (f : Frames) (why : Exit) :
    ∀ (fuel : Nat) (frame : Int), f.getAllFrom fuel frame ≠ .exit why := by
  intro fuel
  induction fuel with
  | zero => intro frame h; exact absurd h (by simp [Frames.getAllFrom])
  | succ fuel ih =>
      intro frame h
      rw [Frames.getAllFrom] at h
      split at h
      · exact absurd h (by simp)
      · split at h
        · exact absurd h (by simp)
        · cases hrest : f.getAllFrom fuel (frame + f.step) with
          | ok rest => rw [hrest] at h; exact absurd h (by simp)
          | exit why' =>
              rw [hrest, Outcome.exit_bind] at h
              exact ih _ (hrest.trans h)
          | hang => rw [hrest] at h; exact absurd h (by simp)
          | undefined => rw [hrest] at h; exact absurd h (by simp)

theorem reach_ne_notIdle {ok : Controller → Input → Prop} {sockFd : Int} {fuel : Nat}
    {s : Controller} (h : (machine codec p sockFd fuel).Reach ok s) :
    s.pc ≠ .exited .notIdle := by
  refine Machine.Reach.invariant (P := fun s => s.pc ≠ .exited .notIdle) ?_
    (fun _ _ _ _ _ hstep => pc_ne_notIdle (move_of_step hstep)) h
  exact after_ne (getAllFrom_ne_exit _ _ _ _) fun _ _ h => Pc.noConfusion h

/-! ### The frames that are handed out -/

/-- A step of the loop that hands out frames. -/
abbrev InHandOut (s : Controller) (_ : Input) : Prop := s.pc = .handingOut

/-- **A turn of that loop takes a frame off the deque**, or is the last. -/
theorem handOut_cases {s t : Controller} {input : Input} (hpc : s.pc = .handingOut)
    (h : step codec p s input = some t) :
    t.pc = .handingOut ∧ t.frames.length + 1 = s.frames.length ∨ t.pc = .loopHead ∨
      ∃ files why, t.pc = .exited why ∧ LocalFailure files why := by
  have hmove := move_of_step h
  cases hmove with
  | nextTurn => exact Or.inr (Or.inl rfl)
  | @assign files frame rest index w _ hframes hidle hw =>
      have hpicked := getIdleWorker_isIdle hidle hw
      have hrest : (w.given frame).ComesToRest codec p files :=
        (inPlace_given w frame).comesToRest
      have hrun : w.runFrame codec p files frame = (w.given frame).dispatch codec p files :=
        if_pos hpicked
      rw [handOut, hrun]
      rcases hrest.returns (Or.inl rfl) with ⟨w', hok⟩ | ⟨why, hexit, hfailure⟩
      · rw [hok]
        refine Or.inl ⟨hpc, ?_⟩
        rw [hframes]
        rfl
      · rw [hexit]
        exact Or.inr (Or.inr ⟨files, why, rfl, hfailure⟩)
  | _ hpc' => rw [hpc] at hpc'; exact Pc.noConfusion hpc'

/-- Out of the loop, there are no steps of it. -/
theorem length_of_left {sockFd : Int} {fuel : Nat} {s t : Controller} {inputs : List Input}
    (hpc : s.pc ≠ .handingOut)
    (h : (machine codec p sockFd fuel).exec InHandOut s inputs = some t) : inputs.length = 0 := by
  cases inputs with
  | nil => rfl
  | cons input rest =>
      rw [Machine.exec, if_neg hpc] at h
      exact absurd h (by simp)

/-- So there are no more turns than frames, and one to find that there is nothing to hand out. -/
theorem handOut_length :
    ∀ (inputs : List Input) {sockFd : Int} {fuel : Nat} {s t : Controller},
      (machine codec p sockFd fuel).exec InHandOut s inputs = some t →
      inputs.length ≤ s.frames.length + 1 := by
  intro inputs
  induction inputs with
  | nil => intro sockFd fuel s t _; exact Nat.zero_le _
  | cons input rest ih =>
      intro sockFd fuel s t h
      rw [Machine.exec] at h
      split at h
      · rename_i hpc
        split at h
        · rename_i u hstep
          rcases handOut_cases hpc hstep with ⟨-, hlen⟩ | hleft | ⟨files, why, hleft, -⟩
          · have hrest := ih h
            rw [List.length_cons]
            omega
          · have hnil := length_of_left (by rw [hleft]; exact fun h => Pc.noConfusion h) h
            rw [List.length_cons, hnil]
            omega
          · have hnil := length_of_left (by rw [hleft]; exact fun h => Pc.noConfusion h) h
            rw [List.length_cons, hnil]
            omega
        · exact absurd h (by simp)
      · exact absurd h (by simp)

/-- Where frames are handed out, there is always a next step. -/
theorem handOut_goes {s : Controller} (hpc : s.pc = .handingOut) (files : Files) :
    ∃ input t, (input = .tau ∨ input = .assign files) ∧ step codec p s input = some t := by
  unfold step
  rw [hpc]
  simp only
  cases hframes : s.frames with
  | nil => exact ⟨.tau, _, Or.inl rfl, rfl⟩
  | cons frame rest =>
      cases hidle : getIdleWorker s.remoteWorkers with
      | none => exact ⟨.tau, _, Or.inl rfl, rfl⟩
      | some index =>
          obtain ⟨hlt, -⟩ := List.findIdx?_eq_some_iff_getElem.mp hidle
          exact ⟨.assign files, s.handOut codec p files frame rest index s.remoteWorkers[index],
            Or.inr rfl, by simp [List.getElem?_eq_getElem hlt]⟩

/-- The loop that hands out frames, from a state in it. -/
structure HandsOut (codec : Codec) (p : Parameters) (s : Controller) : Prop where
  /-- It ends. -/
  ends : ∀ (sockFd : Int) (fuel : Nat) (inputs : List Input) (t : Controller),
    (machine codec p sockFd fuel).exec InHandOut s inputs = some t →
    inputs.length ≤ s.frames.length + 1
  /-- It is never stuck. -/
  goes : s.pc = .handingOut → ∀ files, ∃ input t,
    (input = .tau ∨ input = .assign files) ∧ step codec p s input = some t
  /-- It goes on, or is left, or a local file fails. -/
  turn : s.pc = .handingOut → ∀ input t, step codec p s input = some t →
    t.pc = .handingOut ∨ t.pc = .loopHead ∨
      ∃ files why, t.pc = .exited why ∧ LocalFailure files why

theorem handsOut (s : Controller) : HandsOut codec p s where
  ends _ _ inputs _ h := handOut_length inputs h
  goes hpc files := handOut_goes hpc files
  turn hpc _ _ h := (handOut_cases hpc h).imp_left And.left

end Controller

/--
**`dispatch` always comes to rest**, from every state that a session can bring a worker
to and whatever has been received, and a worker that was given a frame does not rest in
`IDLE`.  So the controller never gives a frame to a worker that is not idle, and the loop
that hands them out ends.
-/
theorem dispatch_always_rests (codec : Codec) (p : Parameters) :
    (∀ (addr : Nat) (fd : Int) (w : RemoteWorker),
      (Session.machine codec p addr fd).Reach Machine.Any w →
      w.InPlace p ∧
      (∀ files b, { w with incomingBuffer := b }.ComesToRest codec p files) ∧
      ∀ files frame, (w.given frame).ComesToRest codec p files ∧
        ∀ w', w.runFrame codec p files frame = .ok w' → w'.isIdle = false) ∧
    ∀ (sockFd : Int) (fuel : Nat) (s : Controller),
      (Controller.machine codec p sockFd fuel).Reach Machine.Any s →
      (∀ w ∈ s.remoteWorkers, w.InPlace p) ∧ s.pc ≠ .exited .notIdle ∧
        s.HandsOut codec p := by
  refine ⟨?_, ?_⟩
  · intro addr fd w hreach
    have hw := Session.reach_inPlace hreach
    refine ⟨hw, fun files b => (hw.incoming b).comesToRest, ?_⟩
    intro files frame
    exact ⟨(RemoteWorker.inPlace_given w frame).comesToRest,
      fun w' hok => (RemoteWorker.runFrame_same hok).2.2.2⟩
  · intro sockFd fuel s hreach
    have hall := Controller.reach_all Controller.upheld_inPlace (fun _ _ _ _ => trivial) hreach
    exact ⟨hall.workers, Controller.reach_ne_notIdle hreach, Controller.handsOut s⟩

end Distray
