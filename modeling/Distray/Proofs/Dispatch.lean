/-
What one turn of `dispatch` can do.

`dispatchStep` is a `switch` over fourteen states with copies, reads and checks
inside.  Everything proved about the state machine needs to know what a turn can
change and under which guard, and nothing else, so that is said once, as the
relation `Turn`: one constructor for each way a turn can go on.  An invariant of the
state machine is then a case analysis on `Turn`, and `dispatch_invariant` carries it
over the loop.  `Stops` is the other half, one constructor for each way a turn can end
the program.

The loop itself is bounded here too.  A turn that leaves the state machine in a
state of immediate action has either advanced the index into the list being copied
or gone on to the next phase, so `turnsLeft` drops.
-/
import Distray.RemoteWorker

namespace Distray

/-- The type of response a state waits for. -/
def State.expects : State → Option RequestType
  | .receiveWelcomeResponse => some .welcome
  | .receiveCopyInNonFrameFile | .receiveCopyInFrameFile => some .copyIn
  | .receiveExecuteResponse => some .execute
  | .receiveCopyOutFrameFile => some .copyOut
  | _ => none

theorem expects_of_immediate {s : State} (h : s.immediate = true) : s.expects = none := by
  cases s <;> first | rfl | simp [State.immediate] at h

namespace RemoteWorker

variable (codec : Codec) (p : Parameters) (files : Files)

/-- The two passes over the files to copy in: the frame they are for, and their states. -/
inductive InPass (w : RemoteWorker) : Int → State → State → State → Prop
  | nonFrame : InPass w (-1) .sendCopyInNonFrameFile .receiveCopyInNonFrameFile .idle
  | frame : InPass w w.frame .sendCopyInFrameFile .receiveCopyInFrameFile .sendExecuteRequest

/-- What a turn that does not end the program has done. -/
inductive Turn (w : RemoteWorker) : RemoteWorker → Prop
  | sendWelcome (hs : w.state = .sendWelcomeRequest) :
      Turn w (w.sendRequest codec welcomeRequest none .receiveWelcomeResponse)
  | welcomed {r : Response} (hs : w.state = .receiveWelcomeResponse)
      (hparse : codec.parseResponse w.incomingBuffer.getMessage = some r)
      (htype : r.requestType = .welcome) :
      Turn w { w.decoded r with
        hostname := r.welcomeResponse.hostname
        proxyIndex := -1
        stateIndex := 0
        state := .sendCopyInNonFrameFile }
  | inSent {frame : Int} {send recv next : State} {c : FileCopy} {content : Bytes}
      (hpass : InPass w frame send recv next) (hs : w.state = send)
      (hcopy : p.inCopies[w.stateIndex]? = some c)
      (hmatch : decide (0 ≤ frame) = c.hasParameter)
      (hread : readFile files (substituteParameter c.source frame) = some content) :
      Turn w (w.sendRequest codec (copyInRequest (substituteParameter c.destination frame) content)
        (some (substituteParameter c.source frame, content)) recv)
  | inSkipped {frame : Int} {send recv next : State} {c : FileCopy}
      (hpass : InPass w frame send recv next) (hs : w.state = send)
      (hcopy : p.inCopies[w.stateIndex]? = some c)
      (hmatch : decide (0 ≤ frame) ≠ c.hasParameter) :
      Turn w { w with stateIndex := w.stateIndex + 1 }
  | inFinished {frame : Int} {send recv next : State}
      (hpass : InPass w frame send recv next) (hs : w.state = send)
      (hend : p.inCopies[w.stateIndex]? = none) :
      Turn w { w with state := next }
  | inReceived {frame : Int} {send recv next : State} {r : Response}
      (hpass : InPass w frame send recv next) (hs : w.state = recv)
      (hparse : codec.parseResponse w.incomingBuffer.getMessage = some r)
      (htype : r.requestType = .copyIn) (hsuccess : r.copyInResponse.success = true) :
      Turn w { w.decoded r with stateIndex := w.stateIndex + 1, state := send }
  | sendExecute (hs : w.state = .sendExecuteRequest) :
      Turn w (w.sendRequest codec (executeRequest p w.frame) none .receiveExecuteResponse)
  | executed {r : Response} (hs : w.state = .receiveExecuteResponse)
      (hparse : codec.parseResponse w.incomingBuffer.getMessage = some r)
      (htype : r.requestType = .execute) (hstatus : r.executeResponse.status = 0) :
      Turn w { w.decoded r with state := .sendCopyOutFrameFile, stateIndex := 0 }
  | outSent {c : FileCopy} (hs : w.state = .sendCopyOutFrameFile)
      (hcopy : p.outCopies[w.stateIndex]? = some c)
      (hmatch : decide (0 ≤ w.frame) = c.hasParameter) :
      Turn w (w.sendRequest codec (copyOutRequest (substituteParameter c.source w.frame)) none
        .receiveCopyOutFrameFile)
  | outSkipped {c : FileCopy} (hs : w.state = .sendCopyOutFrameFile)
      (hcopy : p.outCopies[w.stateIndex]? = some c)
      (hmatch : decide (0 ≤ w.frame) ≠ c.hasParameter) :
      Turn w { w with stateIndex := w.stateIndex + 1 }
  | outFinished (hs : w.state = .sendCopyOutFrameFile)
      (hend : p.outCopies[w.stateIndex]? = none) :
      Turn w { w with state := .idle }
  | outReceived {r : Response} {c : FileCopy} (hs : w.state = .receiveCopyOutFrameFile)
      (hparse : codec.parseResponse w.incomingBuffer.getMessage = some r)
      (htype : r.requestType = .copyOut)
      (hcopy : p.outCopies[w.stateIndex]? = some c)
      (hsuccess : r.copyOutResponse.success = true)
      (hwrite : writeFile files (substituteParameter c.destination w.frame)
        r.copyOutResponse.content = true) :
      Turn w { w.decoded r with
        trace := .writeFile (substituteParameter c.destination w.frame) r.copyOutResponse.content
          (files.stored (substituteParameter c.destination w.frame) r.copyOutResponse.content)
            :: (w.decoded r).trace
        stateIndex := w.stateIndex + 1
        state := .sendCopyOutFrameFile }
  | unimplemented (hs : w.state = .sendCopyOutNonFrameFile ∨
      w.state = .receiveCopyOutNonFrameFile ∨ w.state = .done) : Turn w w

/-- How a turn that does end the program comes to do so. -/
inductive Stops (w : RemoteWorker) : Outcome RemoteWorker → Prop
  | dispatchedIdle (hs : w.state = .idle) : Stops w (.exit .dispatchedIdle)
  | unreadable {frame : Int} {send recv next : State} {c : FileCopy}
      (hpass : InPass w frame send recv next) (hs : w.state = send)
      (hcopy : p.inCopies[w.stateIndex]? = some c)
      (hmatch : decide (0 ≤ frame) = c.hasParameter)
      (hread : readFile files (substituteParameter c.source frame) = none) :
      Stops w (.exit (.unreadable (substituteParameter c.source frame)))
  | undecodable {expected : RequestType} (hs : w.state.expects = some expected)
      (hparse : codec.parseResponse w.incomingBuffer.getMessage = none) :
      Stops w (.exit .undecodable)
  | unexpectedType {expected : RequestType} {r : Response}
      (hs : w.state.expects = some expected)
      (hparse : codec.parseResponse w.incomingBuffer.getMessage = some r)
      (htype : r.requestType ≠ expected) :
      Stops w (.exit (.unexpectedType r.requestType expected))
  | copyInFailed {frame : Int} {send recv next : State} {r : Response}
      (hpass : InPass w frame send recv next) (hs : w.state = recv)
      (hparse : codec.parseResponse w.incomingBuffer.getMessage = some r)
      (htype : r.requestType = .copyIn) (hsuccess : r.copyInResponse.success = false) :
      Stops w (.exit .copyFailed)
  | executeFailed {r : Response} (hs : w.state = .receiveExecuteResponse)
      (hparse : codec.parseResponse w.incomingBuffer.getMessage = some r)
      (htype : r.requestType = .execute) (hstatus : r.executeResponse.status ≠ 0) :
      Stops w (.exit (.executeFailed r.executeResponse.status))
  | copyOutFailed {r : Response} {c : FileCopy} (hs : w.state = .receiveCopyOutFrameFile)
      (hparse : codec.parseResponse w.incomingBuffer.getMessage = some r)
      (htype : r.requestType = .copyOut)
      (hcopy : p.outCopies[w.stateIndex]? = some c)
      (hfail : r.copyOutResponse.success = false ∨
        writeFile files (substituteParameter c.destination w.frame)
          r.copyOutResponse.content = false) :
      Stops w (.exit .copyFailed)
  | pastTheEnd {r : Response} (hs : w.state = .receiveCopyOutFrameFile)
      (hparse : codec.parseResponse w.incomingBuffer.getMessage = some r)
      (htype : r.requestType = .copyOut)
      (hend : p.outCopies[w.stateIndex]? = none) :
      Stops w .undefined

variable {codec p files}

theorem receiveResponse_eq_ok {w w' : RemoteWorker} {r : Response} {expected : RequestType}
    (h : w.receiveResponse codec expected = .ok (r, w')) :
    codec.parseResponse w.incomingBuffer.getMessage = some r ∧ r.requestType = expected ∧
      w' = w.decoded r := by
  unfold receiveResponse at h
  split at h
  · exact absurd h (by simp)
  · rename_i r' hparse
    split at h
    · exact absurd h (by simp)
    · rename_i htype
      simp only [Outcome.ok.injEq, Prod.mk.injEq] at h
      obtain ⟨rfl, rfl⟩ := h
      exact ⟨hparse, by simpa using htype, rfl⟩

theorem turn_of_copyFileIn {w w' : RemoteWorker} {frame : Int} {send recv next : State}
    (hpass : InPass w frame send recv next) (hs : w.state = send)
    (h : w.copyFileIn codec p files frame recv next = .ok w') : Turn codec p files w w' := by
  unfold copyFileIn at h
  split at h
  · rename_i c hcopy
    split at h
    · rename_i hmatch
      simp only at h
      split at h
      · exact absurd h (by simp)
      · rename_i content hread
        rw [Outcome.ok.injEq] at h
        exact h ▸ .inSent hpass hs hcopy hmatch hread
    · rename_i hmatch
      rw [Outcome.ok.injEq] at h
      exact h ▸ .inSkipped hpass hs hcopy hmatch
  · rename_i hend
    rw [Outcome.ok.injEq] at h
    exact h ▸ .inFinished hpass hs hend

theorem turn_of_copyFileOut {w w' : RemoteWorker} (hs : w.state = .sendCopyOutFrameFile)
    (h : w.copyFileOut codec p w.frame .receiveCopyOutFrameFile .idle = .ok w') :
    Turn codec p files w w' := by
  unfold copyFileOut at h
  split at h
  · rename_i c hcopy
    split at h
    · rename_i hmatch
      rw [Outcome.ok.injEq] at h
      exact h ▸ .outSent hs hcopy hmatch
    · rename_i hmatch
      rw [Outcome.ok.injEq] at h
      exact h ▸ .outSkipped hs hcopy hmatch
  · rename_i hend
    rw [Outcome.ok.injEq] at h
    exact h ▸ .outFinished hs hend

theorem handleCopyFileOutResponse_eq_ok {w w' : RemoteWorker} {r : Response} {frame : Int}
    {c : FileCopy} (h : w.handleCopyFileOutResponse files r frame c = .ok w') :
    r.copyOutResponse.success = true ∧
      writeFile files (substituteParameter c.destination frame) r.copyOutResponse.content = true ∧
      w' = { w with
        trace := .writeFile (substituteParameter c.destination frame) r.copyOutResponse.content
          (files.stored (substituteParameter c.destination frame) r.copyOutResponse.content)
            :: w.trace } := by
  unfold handleCopyFileOutResponse at h
  split at h
  · rename_i hsuccess
    simp only at h
    split at h
    · rename_i hwrite
      rw [Outcome.ok.injEq] at h
      exact ⟨hsuccess, hwrite, h.symm⟩
    · exact absurd h (by simp)
  · exact absurd h (by simp)

/-- A response to a copy-in request has moved the index on, or the program is over. -/
private theorem turn_of_inReceived {w w' : RemoteWorker} {frame : Int} {send recv next : State}
    (hpass : InPass w frame send recv next) (hs : w.state = recv)
    (h : (w.receiveResponse codec .copyIn >>= fun x =>
      if x.1.copyInResponse.success then
        pure { x.2 with stateIndex := x.2.stateIndex + 1, state := send }
      else .exit .copyFailed) = .ok w') : Turn codec p files w w' := by
  obtain ⟨⟨r, w₁⟩, hr, h⟩ := Outcome.bind_eq_ok.mp h
  obtain ⟨hparse, htype, rfl⟩ := receiveResponse_eq_ok hr
  simp only at h
  split at h
  · rename_i hsuccess
    rw [Outcome.pure_eq, Outcome.ok.injEq] at h
    exact h ▸ .inReceived hpass hs hparse htype hsuccess
  · exact absurd h (by simp)

/-- **A turn that returns is one of those listed.** -/
theorem turn_of_dispatchStep {w w' : RemoteWorker}
    (h : w.dispatchStep codec p files = .ok w') : Turn codec p files w w' := by
  unfold dispatchStep at h
  split at h
  case h_1 hs => rw [Outcome.ok.injEq] at h; exact h ▸ .sendWelcome hs
  case h_2 hs =>
    obtain ⟨⟨r, w₁⟩, hr, h⟩ := Outcome.bind_eq_ok.mp h
    obtain ⟨hparse, htype, rfl⟩ := receiveResponse_eq_ok hr
    simp only [Outcome.pure_eq, Outcome.ok.injEq] at h
    exact h ▸ .welcomed hs hparse htype
  case h_3 hs => exact turn_of_copyFileIn .nonFrame hs h
  case h_4 hs => exact turn_of_inReceived .nonFrame hs h
  case h_5 hs => exact absurd h (by simp)
  case h_6 hs => exact turn_of_copyFileIn .frame hs h
  case h_7 hs => exact turn_of_inReceived .frame hs h
  case h_8 hs => rw [Outcome.ok.injEq] at h; exact h ▸ .sendExecute hs
  case h_9 hs =>
    obtain ⟨⟨r, w₁⟩, hr, h⟩ := Outcome.bind_eq_ok.mp h
    obtain ⟨hparse, htype, rfl⟩ := receiveResponse_eq_ok hr
    simp only at h
    split at h
    · exact absurd h (by simp)
    · rename_i hstatus
      rw [Outcome.pure_eq, Outcome.ok.injEq] at h
      exact h ▸ .executed hs hparse htype (by simpa using hstatus)
  case h_10 hs => exact turn_of_copyFileOut hs h
  case h_11 hs =>
    obtain ⟨⟨r, w₁⟩, hr, h⟩ := Outcome.bind_eq_ok.mp h
    obtain ⟨hparse, htype, rfl⟩ := receiveResponse_eq_ok hr
    simp only at h
    split at h
    · exact absurd h (by simp)
    · rename_i c hcopy
      obtain ⟨w₂, hw, h⟩ := Outcome.bind_eq_ok.mp h
      obtain ⟨hsuccess, hwrite, rfl⟩ := handleCopyFileOutResponse_eq_ok hw
      rw [Outcome.pure_eq, Outcome.ok.injEq] at h
      exact h ▸ .outReceived hs hparse htype hcopy hsuccess hwrite
  case h_12 hs => rw [Outcome.ok.injEq] at h; exact h ▸ .unimplemented (Or.inl hs)
  case h_13 hs => rw [Outcome.ok.injEq] at h; exact h ▸ .unimplemented (Or.inr (Or.inl hs))
  case h_14 hs => rw [Outcome.ok.injEq] at h; exact h ▸ .unimplemented (Or.inr (Or.inr hs))

/-- What `receive_response` can do. -/
theorem receiveResponse_cases (codec : Codec) (w : RemoteWorker) (expected : RequestType) :
    (codec.parseResponse w.incomingBuffer.getMessage = none ∧
      w.receiveResponse codec expected = .exit .undecodable) ∨
    ∃ r, codec.parseResponse w.incomingBuffer.getMessage = some r ∧
      ((r.requestType ≠ expected ∧
          w.receiveResponse codec expected = .exit (.unexpectedType r.requestType expected)) ∨
        (r.requestType = expected ∧ w.receiveResponse codec expected = .ok (r, w.decoded r))) := by
  unfold receiveResponse
  cases hparse : codec.parseResponse w.incomingBuffer.getMessage with
  | none => exact Or.inl ⟨rfl, rfl⟩
  | some r =>
      refine Or.inr ⟨r, rfl, ?_⟩
      by_cases htype : r.requestType = expected
      · exact Or.inr ⟨htype, by simp [htype]⟩
      · exact Or.inl ⟨htype, by simp [htype]⟩

/-- A turn that waits for a response stops on a bad one, or on what it does with a good one. -/
private theorem stops_of_receive {w : RemoteWorker} {o : Outcome RemoteWorker}
    {expected : RequestType} {f : Response × RemoteWorker → Outcome RemoteWorker}
    (hs : w.state.expects = some expected)
    (h : (w.receiveResponse codec expected >>= f) = o)
    (hf : ∀ r, codec.parseResponse w.incomingBuffer.getMessage = some r →
      r.requestType = expected → f (r, w.decoded r) = o → Stops codec p files w o) :
    Stops codec p files w o := by
  rcases receiveResponse_cases codec w expected with
    ⟨hparse, hr⟩ | ⟨r, hparse, ⟨htype, hr⟩ | ⟨htype, hr⟩⟩
  · rw [hr, Outcome.exit_bind] at h
    exact h ▸ .undecodable hs hparse
  · rw [hr, Outcome.exit_bind] at h
    exact h ▸ .unexpectedType hs hparse htype
  · rw [hr, Outcome.ok_bind] at h
    exact hf r hparse htype h

private theorem stops_of_copyFileIn {w : RemoteWorker} {o : Outcome RemoteWorker} {frame : Int}
    {send recv next : State} (hpass : InPass w frame send recv next) (hs : w.state = send)
    (h : w.copyFileIn codec p files frame recv next = o) (hok : ∀ w', o ≠ .ok w') :
    Stops codec p files w o := by
  unfold copyFileIn at h
  split at h
  · rename_i c hcopy
    split at h
    · rename_i hmatch
      simp only at h
      split at h
      · rename_i hread
        exact h ▸ .unreadable hpass hs hcopy hmatch hread
      · exact absurd h.symm (hok _)
    · exact absurd h.symm (hok _)
  · exact absurd h.symm (hok _)

private theorem stops_of_inReceived {w : RemoteWorker} {o : Outcome RemoteWorker} {frame : Int}
    {send recv next : State} (hpass : InPass w frame send recv next) (hs : w.state = recv)
    (h : (w.receiveResponse codec .copyIn >>= fun x =>
      if x.1.copyInResponse.success then
        pure { x.2 with stateIndex := x.2.stateIndex + 1, state := send }
      else .exit .copyFailed) = o) (hok : ∀ w', o ≠ .ok w') : Stops codec p files w o := by
  have hexpects : w.state.expects = some .copyIn := by cases hpass <;> rw [hs] <;> rfl
  refine stops_of_receive hexpects h ?_
  intro r hparse htype h
  simp only at h
  split at h
  · exact absurd h.symm (hok _)
  · rename_i hsuccess
    exact h ▸ .copyInFailed hpass hs hparse htype (by simpa using hsuccess)

/-- **A turn that does not return stops for one of the reasons listed.** -/
theorem stops_of_dispatchStep {w : RemoteWorker} {o : Outcome RemoteWorker}
    (h : w.dispatchStep codec p files = o) (hok : ∀ w', o ≠ .ok w') :
    Stops codec p files w o := by
  unfold dispatchStep at h
  split at h
  case h_2 hs =>
    refine stops_of_receive (by rw [hs]; rfl) h ?_
    intro r hparse htype h
    exact absurd h.symm (hok _)
  case h_3 hs => exact stops_of_copyFileIn .nonFrame hs h hok
  case h_4 hs => exact stops_of_inReceived .nonFrame hs h hok
  case h_5 hs => exact h ▸ .dispatchedIdle hs
  case h_6 hs => exact stops_of_copyFileIn .frame hs h hok
  case h_7 hs => exact stops_of_inReceived .frame hs h hok
  case h_9 hs =>
    refine stops_of_receive (by rw [hs]; rfl) h ?_
    intro r hparse htype h
    simp only at h
    split at h
    · rename_i hstatus
      exact h ▸ .executeFailed hs hparse htype hstatus
    · exact absurd h.symm (hok _)
  case h_10 hs =>
    unfold copyFileOut at h
    split at h <;> (try split at h) <;> exact absurd h.symm (hok _)
  case h_11 hs =>
    refine stops_of_receive (by rw [hs]; rfl) h ?_
    intro r hparse htype h
    simp only at h
    split at h
    · rename_i hend
      exact h ▸ .pastTheEnd hs hparse htype hend
    · rename_i c hcopy
      cases hsuccess : r.copyOutResponse.success with
      | false =>
          simp only [handleCopyFileOutResponse, hsuccess, Bool.false_eq_true, if_false,
            Outcome.exit_bind] at h
          exact h ▸ .copyOutFailed hs hparse htype hcopy (Or.inl hsuccess)
      | true =>
          simp only [handleCopyFileOutResponse, hsuccess, if_true] at h
          split at h
          · exact absurd h.symm (hok _)
          · rename_i hwrite
            exact h ▸ .copyOutFailed hs hparse htype hcopy
              (Or.inr (by simpa [decoded] using hwrite))
  all_goals exact absurd h.symm (hok _)

/-! ### The loop

The loop is on fuel, and what is proved about it should not be.  So each rule here is for a
property of the states between two turns, and the one induction on the fuel is done once.
-/

/--
What the first turn establishes, and every turn asked for by a state of immediate
action keeps, is true when `dispatch` returns.
-/
theorem dispatchLoop_induct {P : RemoteWorker → Prop}
    (hmore : ∀ w w', P w → w.state.immediate = true → Turn codec p files w w' → P w') :
    ∀ (fuel : Nat) {w w' : RemoteWorker},
      w.dispatchLoop codec p files fuel = .ok w' → (∀ w₁, Turn codec p files w w₁ → P w₁) →
      P w' := by
  intro fuel
  induction fuel with
  | zero => intro w w' h; simp [dispatchLoop] at h
  | succ fuel ih =>
      intro w w' h hfirst
      obtain ⟨w₁, hstep, h⟩ := Outcome.bind_eq_ok.mp h
      have hw₁ := hfirst w₁ (turn_of_dispatchStep hstep)
      split at h
      · rename_i himm
        exact ih h fun w₂ hturn => hmore w₁ w₂ hw₁ himm hturn
      · rw [Outcome.ok.injEq] at h
        exact h ▸ hw₁

theorem dispatch_induct {P : RemoteWorker → Prop} {w w' : RemoteWorker}
    (h : w.dispatch codec p files = .ok w') (hfirst : ∀ w₁, Turn codec p files w w₁ → P w₁)
    (hmore : ∀ w w', P w → w.state.immediate = true → Turn codec p files w w' → P w') :
    P w' :=
  dispatchLoop_induct hmore _ h hfirst

theorem dispatch_invariant {P : RemoteWorker → Prop}
    (hturn : ∀ w w', P w → Turn codec p files w w' → P w') {w w' : RemoteWorker}
    (h : w.dispatch codec p files = .ok w') (hw : P w) : P w' :=
  dispatch_induct h (fun w₁ => hturn w w₁ hw) fun w₁ w₂ hw₁ _ => hturn w₁ w₂ hw₁

/--
`dispatch` stops where one of its turns does, and what turns keep is still true there.
The turn that stops is the first one, or one that a state of immediate action asked for.
-/
theorem dispatchLoop_stops {P : RemoteWorker → Prop}
    (hturn : ∀ w w', P w → Turn codec p files w w' → P w') :
    ∀ (fuel : Nat) {w : RemoteWorker} {o : Outcome RemoteWorker},
      w.dispatchLoop codec p files fuel = o → (∀ w', o ≠ .ok w') → o ≠ .hang → P w →
      ∃ w₁, P w₁ ∧ Stops codec p files w₁ o ∧ (w₁ = w ∨ w₁.state.immediate = true) := by
  intro fuel
  induction fuel with
  | zero => intro w o h _ hhang _; exact absurd h.symm hhang
  | succ fuel ih =>
      intro w o h hok hhang hw
      rw [dispatchLoop] at h
      cases hstep : w.dispatchStep codec p files with
      | ok w₁ =>
          rw [hstep, Outcome.ok_bind] at h
          have hw₁ := hturn w w₁ hw (turn_of_dispatchStep hstep)
          split at h
          · rename_i himm
            obtain ⟨w₂, hw₂, hstops, hfirst⟩ := ih h hok hhang hw₁
            refine ⟨w₂, hw₂, hstops, Or.inr ?_⟩
            rcases hfirst with rfl | himm₂
            · exact himm
            · exact himm₂
          · exact absurd h.symm (hok _)
      | exit why =>
          rw [hstep, Outcome.exit_bind] at h
          exact ⟨w, hw, stops_of_dispatchStep (hstep.trans h) hok, Or.inl rfl⟩
      | hang =>
          rw [hstep, Outcome.hang_bind] at h
          exact absurd h.symm hhang
      | undefined =>
          rw [hstep, Outcome.undefined_bind] at h
          exact ⟨w, hw, stops_of_dispatchStep (hstep.trans h) hok, Or.inl rfl⟩

theorem dispatch_stops {P : RemoteWorker → Prop}
    (hturn : ∀ w w', P w → Turn codec p files w w' → P w') {w : RemoteWorker}
    {o : Outcome RemoteWorker} (h : w.dispatch codec p files = o) (hok : ∀ w', o ≠ .ok w')
    (hhang : o ≠ .hang) (hw : P w) :
    ∃ w₁, P w₁ ∧ Stops codec p files w₁ o ∧ (w₁ = w ∨ w₁.state.immediate = true) :=
  dispatchLoop_stops hturn _ h hok hhang hw

/-- `dispatch` returns only where no immediate action is needed. -/
theorem dispatchLoop_waits :
    ∀ (fuel : Nat) {w w' : RemoteWorker},
      w.dispatchLoop codec p files fuel = .ok w' → w'.state.immediate = false := by
  intro fuel
  induction fuel with
  | zero => intro w w' h; simp [dispatchLoop] at h
  | succ fuel ih =>
      intro w w' h
      obtain ⟨w₁, -, h⟩ := Outcome.bind_eq_ok.mp h
      split at h
      · exact ih h
      · rename_i himm
        rw [Outcome.ok.injEq] at h
        exact h ▸ by simpa using himm

theorem dispatch_waits {w w' : RemoteWorker} (h : w.dispatch codec p files = .ok w') :
    w'.state.immediate = false := dispatchLoop_waits _ h

/-! ### The loop ends

The states of immediate action come in an order, and within one of them the index goes up
until the list is through.  The number of turns that are left is read off both, and is never
more than the fuel.
-/

/-- At most how many turns are left before `dispatch` returns. -/
def turnsLeft (p : Parameters) (w : RemoteWorker) : Nat :=
  let ins := p.inCopies.length - w.stateIndex
  let outs := p.outCopies.length - w.stateIndex
  match w.state with
  | .receiveWelcomeResponse => p.inCopies.length + 2
  | .sendCopyInNonFrameFile => ins + 1
  | .receiveCopyInNonFrameFile => ins + 2
  | .sendCopyInFrameFile => ins + 2
  | .receiveCopyInFrameFile => ins + 3
  | .receiveExecuteResponse => p.outCopies.length + 2
  | .sendCopyOutFrameFile => outs + 1
  | .receiveCopyOutFrameFile => outs + 2
  | _ => 1

theorem turnsLeft_le (w : RemoteWorker) : turnsLeft p w < dispatchFuel p := by
  unfold turnsLeft dispatchFuel
  cases w.state <;> simp only <;> omega

theorem Turn.turnsLeft_lt {w w' : RemoteWorker} (h : Turn codec p files w w')
    (hne : w.state ≠ .sendCopyOutNonFrameFile) (himm : w'.state.immediate = true) :
    turnsLeft p w' < turnsLeft p w ∧ w'.state ≠ .sendCopyOutNonFrameFile := by
  cases h with
  | sendWelcome hs => simp [sendRequest, State.immediate] at himm
  | welcomed hs => simp [turnsLeft, hs]
  | inSent hpass => cases hpass <;> simp [sendRequest, State.immediate] at himm
  | inSkipped hpass hs hcopy =>
      have hlt := (List.getElem?_eq_some_iff.mp hcopy).1
      cases hpass <;> simp [turnsLeft, hs] <;> omega
  | inFinished hpass hs => cases hpass <;> simp [turnsLeft, hs, State.immediate] at himm ⊢
  | inReceived hpass hs => cases hpass <;> simp [turnsLeft, hs] <;> omega
  | sendExecute hs => simp [sendRequest, State.immediate] at himm
  | executed hs => simp [turnsLeft, hs]
  | outSent hs => simp [sendRequest, State.immediate] at himm
  | outSkipped hs hcopy =>
      have hlt := (List.getElem?_eq_some_iff.mp hcopy).1
      simp [turnsLeft, hs]
      omega
  | outFinished hs => simp [State.immediate] at himm
  | outReceived hs => simp [turnsLeft, hs]; omega
  | unimplemented hs =>
      rcases hs with hs | hs | hs
      · exact absurd hs hne
      · simp [hs, State.immediate] at himm
      · simp [hs, State.immediate] at himm

theorem dispatchStep_ne_hang (w : RemoteWorker) : w.dispatchStep codec p files ≠ .hang := by
  have hresp : ∀ expected, w.receiveResponse codec expected ≠ .hang := by
    intro expected
    unfold receiveResponse
    split <;> (try split) <;> simp
  have hin : ∀ frame recv next, w.copyFileIn codec p files frame recv next ≠ .hang := by
    intro frame recv next
    unfold copyFileIn
    split <;> (try split) <;> simp only [ne_eq, reduceCtorEq, not_false_eq_true]
    split <;> simp
  have hout : ∀ frame recv next, w.copyFileOut codec p frame recv next ≠ .hang := by
    intro frame recv next
    unfold copyFileOut
    split <;> (try split) <;> simp
  have hhandle : ∀ (w : RemoteWorker) r frame c,
      w.handleCopyFileOutResponse files r frame c ≠ .hang := by
    intro w r frame c
    unfold handleCopyFileOutResponse
    split <;> (try simp only) <;> (try split) <;> simp
  unfold dispatchStep
  split
  case h_2 => exact Outcome.bind_ne_hang (hresp _) fun x => by simp
  case h_3 => exact hin _ _ _
  case h_4 | h_7 =>
    refine Outcome.bind_ne_hang (hresp _) ?_
    intro x
    simp only
    split <;> simp
  case h_6 => exact hin _ _ _
  case h_9 =>
    refine Outcome.bind_ne_hang (hresp _) ?_
    intro x
    simp only
    split <;> simp
  case h_10 => exact hout _ _ _
  case h_11 =>
    refine Outcome.bind_ne_hang (hresp _) ?_
    intro x
    simp only
    split
    · simp
    · exact Outcome.bind_ne_hang (hhandle _ _ _ _) fun y => by simp
  all_goals simp

theorem dispatchLoop_ne_hang :
    ∀ (fuel : Nat) (w : RemoteWorker), turnsLeft p w ≤ fuel →
      w.state ≠ .sendCopyOutNonFrameFile → w.dispatchLoop codec p files fuel ≠ .hang := by
  intro fuel
  induction fuel with
  | zero =>
      intro w hle
      exfalso
      unfold turnsLeft at hle
      cases hs : w.state <;> simp [hs] at hle
  | succ fuel ih =>
      intro w hle hne h
      rw [dispatchLoop] at h
      cases hstep : w.dispatchStep codec p files with
      | ok w₁ =>
          rw [hstep, Outcome.ok_bind] at h
          split at h
          · rename_i himm
            have hlt := (turn_of_dispatchStep hstep).turnsLeft_lt hne himm
            exact ih w₁ (by omega) hlt.2 h
          · exact absurd h (by simp)
      | exit why => simp [hstep] at h
      | hang => exact dispatchStep_ne_hang w hstep
      | undefined => simp [hstep] at h

/--
**`dispatch` always ends**, but for the state whose case is empty: the fuel it is
given is never the reason it stops.
-/
theorem dispatch_ne_hang {w : RemoteWorker} (hne : w.state ≠ .sendCopyOutNonFrameFile) :
    w.dispatch codec p files ≠ .hang :=
  dispatchLoop_ne_hang _ w (Nat.le_of_lt (turnsLeft_le w)) hne

end RemoteWorker

end Distray
