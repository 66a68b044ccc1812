/-
What a remote worker is left with when a call returns.

Between two calls a remote worker is in one of two situations: nothing is outstanding
and it expects no response, or it has just put one request into an empty buffer.  Which
of the two, `dispatch` settles by itself, and that is `Settled`.  And when `dispatch`
ends the program, it is because of what a response says, not because one was not to be
had.

The ways to end the program are looked at for the same reason.  Where the response that is
expected is there and can be parsed, `dispatch` never finds that the two ends have got out
of step, whatever else it finds.
-/
import Distray.Session
import Distray.Proofs.Phases

namespace Distray

/-! ### What the buffers do to the bytes -/

theorem IncomingBuffer.partly_of_nil {b : IncomingBuffer} (h : b.taken = []) :
    b.partly = false := by
  simp [partly, h]

theorem IncomingBuffer.partly_of_done {b : IncomingBuffer} (h : b.needReceive = false) :
    b.partly = false := by
  simp [partly, h]

theorem OutgoingBuffer.needSend_of_nil {b : OutgoingBuffer} (h : b.WF) (hnil : b.unsent = []) :
    b.needSend = false := by
  rw [← Bool.not_eq_true, needSend_iff h]
  exact fun hne => hne hnil

/-! ### What `dispatch` leaves behind

A call is made when there is nothing outstanding, or when what was outstanding has arrived.
Either way it ends in one of the two situations it can be made in next time; in between it
has taken turns of which most are neither.
-/

/-- No unsent byte was discarded, and no response that had partly arrived. -/
def Event.orderly : Event → Bool
  | .setMessage _ _ needSend => !needSend
  | .reset partly => !partly
  | _ => true

namespace RemoteWorker

variable {codec : Codec} {p : Parameters} {files : Files}

def Orderly (w : RemoteWorker) : Prop := ∀ e ∈ w.trace, e.orderly = true

/-- Nothing is outstanding. -/
structure Ready (w : RemoteWorker) : Prop where
  expects : w.state.expects = none
  unsent : w.outgoingBuffer.unsent = []
  taken : w.incomingBuffer.taken = []
  tidy : w.Tidy
  orderly : w.Orderly
  balanced : w.requests.length = w.responses.length

/-- A request has been put into the buffer, and nothing has been done about it. -/
structure Posted (codec : Codec) (w : RemoteWorker) (request : Request) : Prop where
  expects : w.state.expects = some request.requestType
  buffer : ∃ b : OutgoingBuffer, w.outgoingBuffer = b.setMessage (codec.serializeRequest request)
  taken : w.incomingBuffer.taken = []
  tidy : w.Tidy
  orderly : w.Orderly
  balanced : w.requests.length = w.responses.length + 1

/-- The one or the other. -/
def Settled (codec : Codec) (w : RemoteWorker) : Prop :=
  w.Ready ∨ ∃ request, w.Posted codec request

/-- The buffers and the past are all that counts. -/
theorem Ready.of_eq {w w' : RemoteWorker} (h : w.Ready) (hexpects : w'.state.expects = none)
    (hout : w'.outgoingBuffer = w.outgoingBuffer) (hin : w'.incomingBuffer = w.incomingBuffer)
    (htrace : w'.trace = w.trace) : w'.Ready where
  expects := hexpects
  unsent := by rw [hout]; exact h.unsent
  taken := by rw [hin]; exact h.taken
  tidy := ⟨by rw [hin]; exact h.tidy.incoming, by rw [hout]; exact h.tidy.outgoing⟩
  orderly := by rw [Orderly, htrace]; exact h.orderly
  balanced := by rw [requests, responses, htrace]; exact h.balanced

/-- Sending a request when nothing is outstanding. -/
theorem Ready.sendRequest {w : RemoteWorker} (h : w.Ready) (request : Request)
    (source : Option (Bytes × Bytes)) {next : State}
    (hnext : next.expects = some request.requestType) :
    (w.sendRequest codec request source next).Posted codec request where
  expects := hnext
  buffer := ⟨w.outgoingBuffer, rfl⟩
  taken := IncomingBuffer.taken_reset _
  tidy := ⟨h.tidy.incoming.reset, OutgoingBuffer.wf_setMessage _ _⟩
  orderly := by
    intro e he
    have hsend := OutgoingBuffer.needSend_of_nil h.tidy.outgoing h.unsent
    have hpartly := IncomingBuffer.partly_of_nil h.taken
    rcases List.mem_cons.mp he with rfl | he
    · simp [Event.orderly, hsend]
    · rcases List.mem_cons.mp he with rfl | he
      · simp [Event.orderly, hpartly]
      · exact h.orderly e he
  balanced := by
    have hbalanced := h.balanced
    simp only [requests, responses] at hbalanced
    simp [RemoteWorker.sendRequest, requests, responses, hbalanced]

/-- **A turn taken at once ends ready, or with a request in the buffer.** -/
theorem Ready.turn {w w' : RemoteWorker} (h : w.Ready) (hturn : Turn codec p files w w') :
    w'.Settled codec := by
  have hexpects := h.expects
  cases hturn with
  | sendWelcome hs => exact Or.inr ⟨_, h.sendRequest _ _ rfl⟩
  | inSent hpass => cases hpass <;> exact Or.inr ⟨_, h.sendRequest _ _ rfl⟩
  | inSkipped hpass hs => exact Or.inl (h.of_eq hexpects rfl rfl rfl)
  | inFinished hpass hs => cases hpass <;> exact Or.inl (h.of_eq rfl rfl rfl rfl)
  | sendExecute hs => exact Or.inr ⟨_, h.sendRequest _ _ rfl⟩
  | outSent hs => exact Or.inr ⟨_, h.sendRequest _ _ rfl⟩
  | outSkipped hs => exact Or.inl (h.of_eq hexpects rfl rfl rfl)
  | outFinished hs => exact Or.inl (h.of_eq rfl rfl rfl rfl)
  | unimplemented hs => exact Or.inl h
  -- the states that are left expect a response
  | welcomed hs => simp [hs, State.expects] at hexpects
  | inReceived hpass hs => cases hpass <;> simp [hs, State.expects] at hexpects
  | executed hs => simp [hs, State.expects] at hexpects
  | outReceived hs => simp [hs, State.expects] at hexpects

/-- A response has arrived in full, and nothing else is outstanding. -/
structure Arrived (w : RemoteWorker) : Prop where
  expects : w.state.expects ≠ none
  unsent : w.outgoingBuffer.unsent = []
  complete : w.incomingBuffer.needReceive = false
  tidy : w.Tidy
  orderly : w.Orderly
  balanced : w.requests.length = w.responses.length + 1

/-- Decoding it leaves nothing outstanding. -/
theorem Arrived.decoded {w : RemoteWorker} (h : w.Arrived) (r : Response) (new : List Event)
    (hnew : ∀ e ∈ new, e.orderly = true ∧ e.request? = none ∧ e.response? = none)
    {w' : RemoteWorker} (hexpects : w'.state.expects = none)
    (hout : w'.outgoingBuffer = w.outgoingBuffer)
    (hin : w'.incomingBuffer = w.incomingBuffer.reset)
    (htrace : w'.trace = new ++ .reset w.incomingBuffer.partly :: .response r :: w.trace) :
    w'.Ready where
  expects := hexpects
  unsent := by rw [hout]; exact h.unsent
  taken := by rw [hin]; exact IncomingBuffer.taken_reset _
  tidy := ⟨by rw [hin]; exact h.tidy.incoming.reset, by rw [hout]; exact h.tidy.outgoing⟩
  orderly := by
    intro e he
    rw [htrace] at he
    rcases List.mem_append.mp he with he | he
    · exact (hnew e he).1
    · rcases List.mem_cons.mp he with rfl | he
      · simp [Event.orderly, IncomingBuffer.partly_of_done h.complete]
      · rcases List.mem_cons.mp he with rfl | he
        · rfl
        · exact h.orderly e he
  balanced := by
    have hreq : new.filterMap Event.request? = [] :=
      List.filterMap_eq_nil_iff.mpr fun e he => (hnew e he).2.1
    have hresp : new.filterMap Event.response? = [] :=
      List.filterMap_eq_nil_iff.mpr fun e he => (hnew e he).2.2
    have hbalanced := h.balanced
    simp only [requests, responses] at hbalanced
    simp only [requests, responses, htrace, Event.history_append, Event.history_cons,
      List.length_append, hbalanced]
    simp [Event.history, hreq, hresp]

/-- **The turn that takes the response leaves nothing outstanding.** -/
theorem Arrived.turn {w w' : RemoteWorker} (h : w.Arrived) (hturn : Turn codec p files w w') :
    w'.Ready := by
  have hexpects := h.expects
  cases hturn with
  | @welcomed r hs => exact h.decoded r [] (by simp) rfl rfl rfl rfl
  | @inReceived _ _ _ _ r hpass hs =>
      cases hpass <;> exact h.decoded r [] (by simp) rfl rfl rfl rfl
  | @executed r hs => exact h.decoded r [] (by simp) rfl rfl rfl rfl
  | @outReceived r c hs =>
      exact h.decoded r [.writeFile (substituteParameter c.destination w.frame)
        r.copyOutResponse.content (files.stored (substituteParameter c.destination w.frame)
          r.copyOutResponse.content)] (by simp [Event.orderly]) rfl rfl rfl rfl
  -- the states that are left expect none
  | sendWelcome hs => simp [hs, State.expects] at hexpects
  | inSent hpass hs => cases hpass <;> simp [hs, State.expects] at hexpects
  | inSkipped hpass hs => cases hpass <;> simp [hs, State.expects] at hexpects
  | inFinished hpass hs => cases hpass <;> simp [hs, State.expects] at hexpects
  | sendExecute hs => simp [hs, State.expects] at hexpects
  | outSent hs => simp [hs, State.expects] at hexpects
  | outSkipped hs => simp [hs, State.expects] at hexpects
  | outFinished hs => simp [hs, State.expects] at hexpects
  | unimplemented hs => rcases hs with hs | hs | hs <;> simp [hs, State.expects] at hexpects

private theorem Settled.turn {w w' : RemoteWorker} (h : w.Settled codec)
    (himm : w.state.immediate = true) (hturn : Turn codec p files w w') : w'.Settled codec := by
  rcases h with hready | ⟨request, hposted⟩
  · exact hready.turn hturn
  · exact absurd (hposted.expects.symm.trans (expects_of_immediate himm)) (by simp)

theorem Ready.dispatch {w w' : RemoteWorker} (h : w.Ready)
    (hok : w.dispatch codec p files = .ok w') : w'.Settled codec :=
  dispatch_induct hok (fun _ hturn => h.turn hturn) fun _ _ hw himm hturn => hw.turn himm hturn

theorem Arrived.dispatch {w w' : RemoteWorker} (h : w.Arrived)
    (hok : w.dispatch codec p files = .ok w') : w'.Settled codec :=
  dispatch_induct hok (fun _ hturn => Or.inl (h.turn hturn)) fun _ _ hw himm hturn =>
    hw.turn himm hturn

end RemoteWorker

/-! ### How it can end -/

/-- The ways to end that mean the two ends had lost step. -/
def Exit.outOfStep : Exit → Bool
  | .dispatchedIdle | .notIdle | .undecodable | .unexpectedType _ _ => true
  | _ => false

namespace RemoteWorker

variable {codec : Codec} {p : Parameters} {files : Files}

/-- A turn taken at once does not wait for a response, so it does not stop over one. -/
theorem Stops.of_immediate {w : RemoteWorker} {why : Exit}
    (h : Stops codec p files w (.exit why)) (himm : w.state.immediate = true) :
    why.outOfStep = false := by
  have hexpects := expects_of_immediate himm
  cases h with
  | dispatchedIdle hs => simp [hs, State.immediate] at himm
  | undecodable hs => exact absurd (hs.symm.trans hexpects) (by simp)
  | unexpectedType hs => exact absurd (hs.symm.trans hexpects) (by simp)
  | unreadable => rfl
  | copyInFailed => rfl
  | executeFailed => rfl
  | copyOutFailed => rfl

/-- A turn that takes a response of the right type does not stop over its type. -/
theorem Stops.of_parse {w : RemoteWorker} {why : Exit} {response : Response}
    (h : Stops codec p files w (.exit why))
    (hexpects : w.state.expects = some response.requestType)
    (hparse : codec.parseResponse w.incomingBuffer.getMessage = some response) :
    why.outOfStep = false := by
  cases h with
  | dispatchedIdle hs => simp [hs, State.expects] at hexpects
  | undecodable hs hnone => exact absurd (hparse.symm.trans hnone) (by simp)
  | @unexpectedType expected r hs hsome htype =>
      rw [hparse, Option.some.injEq] at hsome
      rw [hexpects, Option.some.injEq] at hs
      exact absurd (hsome ▸ hs) htype
  | unreadable => rfl
  | copyInFailed => rfl
  | executeFailed => rfl
  | copyOutFailed => rfl

theorem dispatch_exit_of_immediate {w : RemoteWorker} {why : Exit}
    (himm : w.state.immediate = true) (h : w.dispatch codec p files = .exit why) :
    why.outOfStep = false := by
  obtain ⟨w₁, -, hstops, rfl | himm₁⟩ := dispatch_stops (P := fun _ => True)
    (fun _ _ _ _ => trivial) h (by simp) (by simp) trivial
  · exact hstops.of_immediate himm
  · exact hstops.of_immediate himm₁

theorem dispatch_exit_of_parse {w : RemoteWorker} {why : Exit} {response : Response}
    (hexpects : w.state.expects = some response.requestType)
    (hparse : codec.parseResponse w.incomingBuffer.getMessage = some response)
    (h : w.dispatch codec p files = .exit why) : why.outOfStep = false := by
  obtain ⟨w₁, -, hstops, rfl | himm₁⟩ := dispatch_stops (P := fun _ => True)
    (fun _ _ _ _ => trivial) h (by simp) (by simp) trivial
  · exact hstops.of_parse hexpects hparse
  · exact hstops.of_immediate himm₁

/-- A call of `receive` that ends the program: the length is refused, or `dispatch` does. -/
theorem receive_exit {w : RemoteWorker} {r : Except Errno Bytes} {why : Exit}
    (h : w.receive codec p files r = .exit why) :
    w.incomingBuffer.receive r = .exit why ∨
      ∃ b, w.incomingBuffer.receive r = .ok (.ok b) ∧ b.needReceive = false ∧
        { w with incomingBuffer := b }.dispatch codec p files = .exit why := by
  unfold receive at h
  cases hres : w.incomingBuffer.receive r with
  | ok res =>
      rw [hres, Outcome.ok_bind] at h
      cases res with
      | error e => exact absurd h (by simp)
      | ok b =>
          simp only at h
          split at h
          · exact absurd h (by simp)
          · rename_i hneed
            refine Or.inr ⟨b, rfl, by simpa using hneed, ?_⟩
            cases hd : ({ w with incomingBuffer := b } : RemoteWorker).dispatch codec p files with
            | ok w' => rw [hd, Outcome.ok_bind] at h; exact absurd h (by simp)
            | exit why' =>
                rw [hd, Outcome.exit_bind, Outcome.exit.injEq] at h
                rw [h]
            | hang => rw [hd, Outcome.hang_bind] at h; exact absurd h (by simp)
            | undefined => rw [hd, Outcome.undefined_bind] at h; exact absurd h (by simp)
  | exit why' =>
      rw [hres, Outcome.exit_bind, Outcome.exit.injEq] at h
      exact Or.inl (by rw [h])
  | hang => rw [hres, Outcome.hang_bind] at h; exact absurd h (by simp)
  | undefined => rw [hres, Outcome.undefined_bind] at h; exact absurd h (by simp)

end RemoteWorker

theorem IncomingBuffer.receive_exit {b : IncomingBuffer} {r : Except Errno Bytes} {why : Exit}
    (h : b.receive r = .exit why) : why.outOfStep = false := by
  cases r with
  | error e => simp [receive] at h
  | ok data =>
      simp only [receive] at h
      split at h
      · split at h <;> exact absurd h (by simp)
      · split at h
        · split at h
          · rw [Outcome.exit.injEq] at h
            exact h ▸ rfl
          · split at h <;> exact absurd h (by simp)
        · exact absurd h (by simp)

end Distray
