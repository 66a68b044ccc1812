/-
A remote worker that is answered goes on.

Wherever a remote worker waits for a response, a response can be delivered to it, one byte
after the other, and if it is a good one and the controller's files can be read and
written, the call that completes it returns.  This does not depend on what the worker has
done before, or on what number it was given as its frame: the buffer is empty when a
request has been made, the index is that of a copy, and those are the only things that
`dispatch` can stumble over.

Each answer after the first takes the worker past one of the files that go in once, so
that a worker which is answered often enough is idle.
-/
import Distray.Proofs.Waits

namespace Distray

namespace RemoteWorker

variable {codec : Codec} {p : Parameters} {files : Files}

/-- The worker waits for a response of this type, and nothing of it is there yet. -/
structure Awaits (p : Parameters) (type : RequestType) (w : RemoteWorker) : Prop where
  tidy : w.Tidy
  inPlace : w.InPlace p
  expects : w.state.expects = some type
  taken : w.incomingBuffer.taken = []

theorem Turn.emptied {w w' : RemoteWorker} (h : Turn codec p files w w')
    (hexpects : w'.state.expects ≠ none) : w'.incomingBuffer.taken = [] := by
  cases h with
  | sendWelcome => exact IncomingBuffer.taken_reset _
  | inSent => exact IncomingBuffer.taken_reset _
  | sendExecute => exact IncomingBuffer.taken_reset _
  | outSent => exact IncomingBuffer.taken_reset _
  | inSkipped hpass hs => cases hpass <;> exact absurd (by simp [hs, State.expects]) hexpects
  | inFinished hpass => cases hpass <;> exact absurd rfl hexpects
  | inReceived hpass => cases hpass <;> exact absurd rfl hexpects
  | outSkipped hs => exact absurd (by simp [hs, State.expects]) hexpects
  | unimplemented hs =>
      rcases hs with hs | hs | hs <;> exact absurd (by simp [hs, State.expects]) hexpects
  | _ => exact absurd rfl hexpects

/-- After `dispatch` the worker is idle, or it waits for a response. -/
theorem awaits_of_dispatch {w w' : RemoteWorker} (h : w.dispatch codec p files = .ok w')
    (htidy : w.Tidy) (hplace : w.InPlace p) : w'.isIdle = true ∨ ∃ type, w'.Awaits p type := by
  have hrests : w'.state.resting = true ∧ w'.InPlace p := hplace.comesToRest.rests w' h
  have hemptied : w'.state.expects ≠ none → w'.incomingBuffer.taken = [] :=
    dispatch_induct (P := fun u => u.state.expects ≠ none → u.incomingBuffer.taken = []) h
      (fun _ hturn => hturn.emptied) fun _ _ _ _ hturn => hturn.emptied
  rcases expects_of_resting hrests.1 with hidle | ⟨type, htype⟩
  · exact Or.inl hidle
  · refine Or.inr ⟨type, dispatch_tidy h htidy, hrests.2, htype, hemptied ?_⟩
    rw [htype]
    exact Option.some_ne_none type

end RemoteWorker

namespace Session

open RemoteWorker

variable {codec : Codec} {p : Parameters} {files : Files} {addr : Nat} {fd : Int}

/-- Any call but `run_frame`. -/
def sameFrame : Input → Bool
  | .runFrame _ _ => false
  | _ => true

abbrev SameFrame (_ : RemoteWorker) (input : Input) : Prop := sameFrame input = true

/-! ### A response arrives -/

/-- **What is missing of a message can be delivered**, byte by byte, up to `dispatch`. -/
theorem exists_delivered {payload : Bytes} (hmax : payload.length ≤ MAX_INCOMING_FILE_SIZE)
    (wire : Bytes) : ∀ {w : RemoteWorker}, w.Tidy → w.incomingBuffer.needReceive = true →
      w.incomingBuffer.taken ++ wire = frame payload →
      (∀ b : IncomingBuffer, b.getMessage = payload →
        ∃ w', { w with incomingBuffer := b }.dispatch codec p files = .ok w') →
      ∃ b w', b.WF ∧ b.getMessage = payload ∧
        { w with incomingBuffer := b }.dispatch codec p files = .ok w' ∧
        (machine codec p addr fd).Run SameFrame w w' := by
  induction wire with
  | nil =>
      intro w htidy hneed hstream _
      -- the message would be complete
      have hwhole : w.incomingBuffer.taken ++ [] = frame payload ++ [] := by rw [hstream]; simp
      have hbound : payload.length < lengthHeader.bound := by
        simp only [MAX_INCOMING_FILE_SIZE] at hmax
        simp only [lengthHeader_bound]
        omega
      rw [List.append_nil] at hstream
      refine absurd ?_ ((IncomingBuffer.needReceive_iff htidy.incoming).mp hneed)
      exact (Header.missing_eq_zero_iff hbound hwhole (by rw [hstream])).mpr hstream
  | cons c wire ih =>
      intro w htidy hneed hstream hreturns
      have hfit : w.incomingBuffer.admits (.ok [c]) = true := by
        have hmissing := (IncomingBuffer.needReceive_iff htidy.incoming).mp hneed
        simp only [IncomingBuffer.admits, IncomingBuffer.bytesLeft_eq htidy.incoming,
          List.length_singleton, decide_eq_true_eq]
        omega
      have hstream' : w.incomingBuffer.taken ++ ([c] ++ wire) = frame payload ++ [] := by
        rw [List.append_nil]
        exact hstream
      have hle : w.incomingBuffer.taken.length ≤ (frame payload).length := by
        rw [← hstream, List.length_append]
        exact Nat.le_add_right _ _
      obtain ⟨b, hb, ⟨hwf, htaken, -⟩, hle'⟩ :=
        IncomingBuffer.receive_chunk htidy.incoming hmax hstream' hle (List.cons_ne_nil c []) hfit
      have hrest : b.taken ++ wire = frame payload ++ [] := by
        rw [htaken, List.append_assoc]
        exact hstream'
      have hstep : ∀ w', w.receive codec p files (.ok [c]) = .ok (.ok w') →
          (machine codec p addr fd).Run SameFrame w w' := by
        intro w' hreceive
        refine .step (i := .recv (.ok [c]) files) (.refl w) rfl ?_
        show Session.step codec p w (.recv (.ok [c]) files) = some w'
        rw [Session.step, if_pos hfit, hreceive]
      cases hneed' : b.needReceive with
      | true =>
          have hreceive : w.receive codec p files (.ok [c])
              = .ok (.ok { w with incomingBuffer := b }) := by
            rw [receive, hb]
            simp [hneed']
          rw [List.append_nil] at hrest
          obtain ⟨b', w', hwf', hmessage, hdispatch, hrun⟩ :=
            ih (w := { w with incomingBuffer := b }) ⟨hwf, htidy.outgoing⟩ hneed' hrest hreturns
          exact ⟨b', w', hwf', hmessage, hdispatch, (hstep _ hreceive).trans hrun⟩
      | false =>
          have hmessage := (IncomingBuffer.getMessage_of_frame hwf hmax hrest hle' hneed').2.2
          obtain ⟨w', hdispatch⟩ := hreturns b hmessage
          have hreceive : w.receive codec p files (.ok [c]) = .ok (.ok w') := by
            rw [receive, hb]
            simp [hneed', hdispatch]
          exact ⟨b, w', hwf, hmessage, hdispatch, hstep w' hreceive⟩

theorem not_localFailure {why : Exit} (hfiles : Obliging files) : ¬ LocalFailure files why := by
  intro h
  cases h with
  | unreadable hread => exact hfiles.reads _ hread
  | unwritable hwrite => exact absurd ((hfiles.writes _ _).symm.trans hwrite) (by simp)

/-- **A worker that waits for a response can be answered**, and the call returns. -/
theorem exists_answered (addr : Nat) (fd : Int) (hsound : codec.Sound) (hbrief : codec.Brief)
    {type : RequestType} {w : RemoteWorker} (h : w.Awaits p type) :
    ∃ b w', b.WF ∧ codec.parseResponse b.getMessage = some (.plain type) ∧
      { w with incomingBuffer := b }.dispatch codec p allFiles = .ok w' ∧
      (machine codec p addr fd).Run SameFrame w w' := by
  have hneed : w.incomingBuffer.needReceive = true := by
    refine (IncomingBuffer.needReceive_iff h.tidy.incoming).mpr ?_
    rw [h.taken]
    decide
  have hreturns : ∀ b : IncomingBuffer, b.getMessage = codec.serializeResponse (.plain type) →
      ∃ w', { w with incomingBuffer := b }.dispatch codec p allFiles = .ok w' := by
    intro b hmessage
    have hanswered : WellAnswered codec { w with incomingBuffer := b } := by
      refine ⟨.plain type, by rw [hmessage, hsound.response], ?_, ?_⟩
      · rw [h.expects]
        cases type <;> rfl
      · cases type <;> trivial
    rcases (h.inPlace.incoming b).comesToRest.returns (Or.inr hanswered) with hok | ⟨why, -, hlocal⟩
    · exact hok
    · exact absurd hlocal (not_localFailure obliging_allFiles)
  obtain ⟨b, w', hwf, hmessage, hdispatch, hrun⟩ :=
    exists_delivered (hbrief type) _ h.tidy hneed (by rw [h.taken]; rfl) hreturns
  exact ⟨b, w', hwf, by rw [hmessage, hsound.response], hdispatch, hrun⟩

/-! ### The way to `IDLE`

A worker that has not been given a frame waits for the welcome, or for the response to one
of the copies that are made once.  The index of that copy goes up from one answer to the
next, and what comes after the last of them is `IDLE`.
-/

/-- How many answers there are at most to come before the worker is idle. -/
def answersLeft (p : Parameters) (w : RemoteWorker) : Nat :=
  match w.state with
  | .receiveWelcomeResponse => p.inCopies.length + 1
  | .receiveCopyInNonFrameFile => p.inCopies.length - w.stateIndex
  | _ => 0

/-- The worker has not been given a frame, and at least so many copies are behind it. -/
def Arriving (n : Nat) (w : RemoteWorker) : Prop :=
  ((w.state = .sendCopyInNonFrameFile ∨ w.state = .receiveCopyInNonFrameFile) ∧
    n ≤ w.stateIndex) ∨ w.state = .idle

theorem Arriving.turn {n : Nat} {w w' : RemoteWorker} (h : Arriving n w)
    (himm : w.state.immediate = true) (hturn : Turn codec p files w w') : Arriving n w' := by
  have hs : w.state = .sendCopyInNonFrameFile := by
    rcases h with ⟨hs | hs, -⟩ | hs
    · exact hs
    · simp [hs, State.immediate] at himm
    · simp [hs, State.immediate] at himm
  have hle : n ≤ w.stateIndex := by
    rcases h with ⟨-, hle⟩ | hidle
    · exact hle
    · simp [hs] at hidle
  cases hturn with
  | inSent hpass hs' =>
      cases hpass with
      | nonFrame => exact Or.inl ⟨Or.inr rfl, hle⟩
      | frame => simp [hs] at hs'
  | inSkipped hpass hs' => exact Or.inl ⟨Or.inl hs, Nat.le_succ_of_le hle⟩
  | inFinished hpass hs' =>
      cases hpass with
      | nonFrame => exact Or.inr rfl
      | frame => simp [hs] at hs'
  | inReceived hpass hs' => cases hpass <;> simp [hs] at hs'
  | unimplemented hs' => rcases hs' with hs' | hs' | hs' <;> simp [hs] at hs'
  | sendWelcome hs' => simp [hs] at hs'
  | welcomed hs' => simp [hs] at hs'
  | sendExecute hs' => simp [hs] at hs'
  | executed hs' => simp [hs] at hs'
  | outSent hs' => simp [hs] at hs'
  | outSkipped hs' => simp [hs] at hs'
  | outFinished hs' => simp [hs] at hs'
  | outReceived hs' => simp [hs] at hs'

/-- An answer leads past the copy that it is the answer to. -/
theorem arriving_of_dispatch {w w' : RemoteWorker} (h : w.dispatch codec p files = .ok w')
    (hs : w.state = .receiveWelcomeResponse ∨ w.state = .receiveCopyInNonFrameFile) :
    Arriving (if w.state = .receiveWelcomeResponse then 0 else w.stateIndex + 1) w' := by
  refine dispatch_induct h ?_ fun _ _ hw himm hturn => hw.turn himm hturn
  intro w₁ hturn
  rcases hs with hs | hs
  · rw [if_pos hs]
    cases hturn with
    | welcomed => exact Or.inl ⟨Or.inl rfl, Nat.zero_le _⟩
    | inSent hpass hs' => cases hpass <;> simp [hs] at hs'
    | inSkipped hpass hs' => cases hpass <;> simp [hs] at hs'
    | inFinished hpass hs' => cases hpass <;> simp [hs] at hs'
    | inReceived hpass hs' => cases hpass <;> simp [hs] at hs'
    | unimplemented hs' => rcases hs' with hs' | hs' | hs' <;> simp [hs] at hs'
    | _ hs' => simp [hs] at hs'
  · rw [if_neg (by rw [hs]; simp)]
    cases hturn with
    | inReceived hpass hs' =>
        cases hpass with
        | nonFrame => exact Or.inl ⟨Or.inl rfl, Nat.le_refl _⟩
        | frame => simp [hs] at hs'
    | inSent hpass hs' => cases hpass <;> simp [hs] at hs'
    | inSkipped hpass hs' => cases hpass <;> simp [hs] at hs'
    | inFinished hpass hs' => cases hpass <;> simp [hs] at hs'
    | unimplemented hs' => rcases hs' with hs' | hs' | hs' <;> simp [hs] at hs'
    | _ hs' => simp [hs] at hs'

/-- **Answered often enough, a worker is idle.** -/
theorem exists_idle_of_awaits (hsound : codec.Sound) (hbrief : codec.Brief) {type : RequestType}
    {w : RemoteWorker} (h : w.Awaits p type)
    (hs : w.state = .receiveWelcomeResponse ∨ w.state = .receiveCopyInNonFrameFile) :
    ∃ w', (machine codec p addr fd).Run SameFrame w w' ∧ w'.isIdle = true ∧ w'.Tidy := by
  induction hn : answersLeft p w using Nat.strong_induction_on generalizing w type with
  | _ n ih =>
      obtain ⟨b, w', hwf, -, hdispatch, hrun⟩ := exists_answered addr fd hsound hbrief h
      have harriving := arriving_of_dispatch (w := { w with incomingBuffer := b }) hdispatch hs
      have htidy : { w with incomingBuffer := b }.Tidy := ⟨hwf, h.tidy.outgoing⟩
      rcases awaits_of_dispatch hdispatch htidy (h.inPlace.incoming b) with
        hidle | ⟨type', hawaits⟩
      · exact ⟨w', hrun, hidle, dispatch_tidy hdispatch htidy⟩
      · have hs' : w'.state = .receiveCopyInNonFrameFile ∧
            (if w.state = .receiveWelcomeResponse then 0 else w.stateIndex + 1)
              ≤ w'.stateIndex := by
          have hexpects := hawaits.expects
          rcases harriving with ⟨hs' | hs', hle⟩ | hs'
          · simp [hs', State.expects] at hexpects
          · exact ⟨hs', hle⟩
          · simp [hs', State.expects] at hexpects
        have hlower : answersLeft p w' < n := by
          rw [← hn, answersLeft, answersLeft, hs'.1]
          have hle := hs'.2
          rcases hs with hs | hs
          · simp only [hs]
            omega
          · have hlt := h.inPlace.ins
            rw [hs] at hle
            simp only [hs, State.expects, forall_const] at hlt ⊢
            simp only [reduceCtorEq, if_false] at hle
            omega
        obtain ⟨w'', hrun', hidle, htidy'⟩ := ih _ hlower hawaits (Or.inr hs'.1) rfl
        exact ⟨w'', hrun.trans hrun', hidle, htidy'⟩

theorem exists_idle (hsound : codec.Sound) (hbrief : codec.Brief) (addr : Nat) (fd : Int) :
    ∃ w, (machine codec p addr fd).Reach Machine.Any w ∧ w.isIdle = true ∧ w.Tidy := by
  obtain ⟨w, hw⟩ : ∃ w, (make addr fd).start codec p allFiles = .ok w :=
    ⟨_, start_make addr fd (-1)⟩
  have hstate : w.state = .receiveWelcomeResponse := by
    have hsame := hw.symm.trans (start_make addr fd (-1))
    rw [Outcome.ok.injEq] at hsame
    rw [hsame]
    rfl
  have hstep : step codec p (make addr fd) (.start allFiles) = some w :=
    returned_eq_some.mpr hw
  rcases awaits_of_dispatch hw (tidy_make addr fd) (inPlace_make addr fd) with hidle | ⟨type, h⟩
  · exact absurd hidle (by simp [isIdle, hstate])
  · obtain ⟨w', hrun, hidle, htidy⟩ :
        ∃ w', (machine codec p addr fd).Run SameFrame w w' ∧ w'.isIdle = true ∧ w'.Tidy :=
      exists_idle_of_awaits hsound hbrief h (Or.inl hstate)
    have hstarted : (machine codec p addr fd).Reach Machine.Any w :=
      .step (i := .start allFiles) (.refl _) trivial hstep
    exact ⟨w', hstarted.trans (hrun.mono fun _ _ _ => trivial), hidle, htidy⟩

end Session

end Distray
