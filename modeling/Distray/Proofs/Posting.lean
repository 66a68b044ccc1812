/-
What is in the outgoing buffer, and what has gone out.

A worker's trace says which requests it made.  What the other end gets of them is bytes,
and those come out of the outgoing buffer, which holds one message at a time: `set_message`
puts the next request over the last one, whether or not that has been sent.  So at every
point the buffer holds the last of the requests, as its frame, from the part that is gone
to the part that is still to go.  And if no request was made before the last one was out,
which is what `need_send` would have said at the time, then all that has gone out, and what
is left in the buffer, are the frames of all the requests, one after the other.

What a trace says of files is taken from the calls of `read_file` and `write_file` that the
operating system has answered in the same step.
-/
import Distray.Proofs.Phases
import Distray.Session

namespace Distray

open Octets

namespace OutgoingBuffer

/-- What is gone and what is still to go are the message in the buffer. -/
theorem sent_append_unsent {b : OutgoingBuffer} (h : b.WF) :
    b.buffer.take b.sent ++ b.unsent = b.buffer.take b.size := by
  have hsent := h.sent
  rw [unsent, ← List.take_add]
  congr 1
  omega

theorem take_setMessage (b : OutgoingBuffer) (data : Bytes) (h : data.length + 4 < 2 ^ 32) :
    (b.setMessage data).buffer.take (b.setMessage data).size = frame data := by
  rw [← unsent_setMessage b data h]
  rfl

end OutgoingBuffer

/-- The length of a request goes into the word in front of it. -/
def Codec.Fits (codec : Codec) (request : Request) : Prop :=
  (codec.serializeRequest request).length + 4 < 2 ^ 32

instance (codec : Codec) (request : Request) : Decidable (codec.Fits request) :=
  inferInstanceAs (Decidable (_ < _))

/-- Bytes that were still to be sent were overwritten. -/
def Event.discards : Event → Bool
  | .setMessage _ _ needSend => needSend
  | _ => false

/-- What is said of a file is what the operating system has answered. -/
def Event.Truthful (files : Files) : Event → Prop
  | .setMessage _ (some (source, content)) _ => readFile files source = some content
  | .writeFile pathname content stored => files.Stores pathname content stored
  | _ => True

namespace RemoteWorker

variable {codec : Codec} {p : Parameters} {files : Files}

/-! ### The buffer holds the last request

The invariant is kept turn by turn, for the bytes that had gone out when `dispatch` was
called: a turn either makes a request, which is then in the buffer whole, or it leaves the
requests and the buffer alone.
-/

/-- The buffer holds the frame of the last request, a part of which may be gone. -/
def Loaded (codec : Codec) (w : RemoteWorker) : Prop :=
  (w.requests = [] → w.outgoingBuffer.unsent = []) ∧
    ∀ sent, w.requests.getLast? = some sent → codec.Fits sent.1 →
      w.outgoingBuffer.buffer.take w.outgoingBuffer.sent ++ w.outgoingBuffer.unsent
        = Distray.frame (codec.serializeRequest sent.1)

/--
What has gone out and what is in the buffer are the frames of the requests, in order, if
none of them was overwritten.
-/
def Tallies (codec : Codec) (w : RemoteWorker) (posted : Bytes) : Prop :=
  (∀ sent ∈ w.requests, codec.Fits sent.1) → (∀ e ∈ w.trace, e.discards = false) →
    posted ++ w.outgoingBuffer.unsent
      = w.requests.flatMap fun sent => Distray.frame (codec.serializeRequest sent.1)

/-- Both, and that the buffer is in order. -/
structure Posts (codec : Codec) (posted : Bytes) (w : RemoteWorker) : Prop where
  outgoing : w.outgoingBuffer.WF
  loaded : w.Loaded codec
  tallies : w.Tallies codec posted

namespace Posts

variable {posted : Bytes} {w w' : RemoteWorker}

theorem make (addr : Nat) (fd : Int) : Posts codec [] (make addr fd) :=
  ⟨OutgoingBuffer.wf_make fd, ⟨fun _ => OutgoingBuffer.unsent_make fd, by
    intro sent hsent
    exact absurd hsent (by simp [requests, RemoteWorker.make, Event.history])⟩, by
    intro _ _
    simp [requests, RemoteWorker.make, Event.history]⟩

/-- What neither makes a request nor touches the buffer keeps it. -/
theorem of_eq (h : Posts codec posted w) (hbuffer : w'.outgoingBuffer = w.outgoingBuffer)
    (new : List Event) (htrace : w'.trace = new ++ w.trace)
    (hnew : Event.history Event.request? new = []) : Posts codec posted w' := by
  have hrequests : w'.requests = w.requests := by
    simp [requests, htrace, hnew]
  refine ⟨hbuffer ▸ h.outgoing, ?_, ?_⟩
  · rw [Loaded, hrequests, hbuffer]
    exact h.loaded
  · intro hfits hkept
    rw [hrequests] at hfits ⊢
    rw [hbuffer]
    refine h.tallies hfits fun e he => hkept e ?_
    rw [htrace]
    exact List.mem_append_right new he

/-- A request is put into the buffer whole, and over what was there. -/
theorem sendRequest (h : Posts codec posted w) (request : Request)
    (source : Option (Bytes × Bytes)) (next : State) :
    Posts codec posted (w.sendRequest codec request source next) := by
  have hrequests : (w.sendRequest codec request source next).requests
      = w.requests ++ [(request, source)] := by
    simp [requests, RemoteWorker.sendRequest]
  have hwf : (w.sendRequest codec request source next).outgoingBuffer.WF :=
    OutgoingBuffer.wf_setMessage _ _
  refine ⟨hwf, ⟨?_, ?_⟩, ?_⟩
  · intro hnone
    rw [hrequests] at hnone
    exact absurd hnone (by simp)
  · intro sent hsent hfits
    rw [hrequests, List.getLast?_append_of_ne_nil _ (by simp), List.getLast?_singleton,
      Option.some.injEq] at hsent
    rw [OutgoingBuffer.sent_append_unsent hwf]
    subst hsent
    exact OutgoingBuffer.take_setMessage _ _ hfits
  · intro hfits hkept
    rw [hrequests] at hfits ⊢
    -- nothing was left of the last one
    have hdone : w.outgoingBuffer.needSend = false :=
      hkept (.setMessage request source w.outgoingBuffer.needSend)
        (by simp [RemoteWorker.sendRequest])
    have hnil : w.outgoingBuffer.unsent = [] := by
      by_contra hne
      rw [(OutgoingBuffer.needSend_iff h.outgoing).mpr hne] at hdone
      exact Bool.noConfusion hdone
    have hbefore := h.tallies (fun sent hsent => hfits sent (List.mem_append_left _ hsent))
      fun e he => hkept e (by simp [RemoteWorker.sendRequest, he])
    rw [hnil, List.append_nil] at hbefore
    have hfit : codec.Fits request := hfits (request, source) (by simp)
    rw [List.flatMap_append, ← hbefore, List.flatMap_singleton]
    exact congrArg (posted ++ ·) (OutgoingBuffer.unsent_setMessage _ _ hfit)

/-- **A turn keeps it.** -/
theorem turn (h : Posts codec posted w) (hturn : Turn codec p files w w') :
    Posts codec posted w' := by
  cases hturn with
  | sendWelcome => exact h.sendRequest _ _ _
  | inSent => exact h.sendRequest _ _ _
  | sendExecute => exact h.sendRequest _ _ _
  | outSent => exact h.sendRequest _ _ _
  | @welcomed r => exact h.of_eq rfl [.reset w.incomingBuffer.partly, .response r] rfl rfl
  | @inReceived _ _ _ _ r =>
      exact h.of_eq rfl [.reset w.incomingBuffer.partly, .response r] rfl rfl
  | @executed r => exact h.of_eq rfl [.reset w.incomingBuffer.partly, .response r] rfl rfl
  | @outReceived r c =>
      exact h.of_eq rfl [.writeFile _ _ _, .reset w.incomingBuffer.partly, .response r] rfl rfl
  | inSkipped => exact h.of_eq rfl [] rfl rfl
  | inFinished => exact h.of_eq rfl [] rfl rfl
  | outSkipped => exact h.of_eq rfl [] rfl rfl
  | outFinished => exact h.of_eq rfl [] rfl rfl
  | unimplemented => exact h

theorem dispatch (h : Posts codec posted w) (hok : w.dispatch codec p files = .ok w') :
    Posts codec posted w' :=
  dispatch_invariant (fun _ _ hw hturn => hw.turn hturn) hok h

/-- What goes out is taken from the front of what is still to go. -/
theorem send (h : Posts codec posted w) {r : Except Errno Nat} {b : OutgoingBuffer}
    {out : Bytes} (hfit : w.outgoingBuffer.admits r = true)
    (hok : w.outgoingBuffer.send r = .ok (b, out)) :
    Posts codec (posted ++ out) { w with outgoingBuffer := b } := by
  obtain ⟨hwf, hunsent⟩ := OutgoingBuffer.send_eq_ok h.outgoing hfit hok
  have hsame : b.buffer.take b.size = w.outgoingBuffer.buffer.take w.outgoingBuffer.size := by
    unfold OutgoingBuffer.send at hok
    split at hok
    · split at hok
      · exact absurd hok (by simp)
      · simp only [Except.ok.injEq, Prod.mk.injEq] at hok
        rw [← hok.1]
    · simp only [Except.ok.injEq, Prod.mk.injEq] at hok
      rw [← hok.1]
  refine ⟨hwf, ⟨?_, ?_⟩, ?_⟩
  · intro hnone
    have hnil := h.loaded.1 hnone
    rw [hunsent] at hnil
    exact (List.append_eq_nil_iff.mp hnil).2
  · intro sent hsent hfits
    have hloaded := h.loaded.2 sent hsent hfits
    rw [OutgoingBuffer.sent_append_unsent h.outgoing] at hloaded
    rw [OutgoingBuffer.sent_append_unsent hwf]
    exact hsame.trans hloaded
  · intro hfits hkept
    have htallies := h.tallies hfits hkept
    rw [hunsent, ← List.append_assoc] at htallies
    exact htallies

end Posts

/-! ### What the trace says of files -/

/-- What is new in a trace says what the files have answered. -/
def Adds (files : Files) (w w' : RemoteWorker) : Prop :=
  ∃ new, w'.trace = new ++ w.trace ∧ ∀ e ∈ new, e.Truthful files

theorem Adds.refl (files : Files) (w : RemoteWorker) : Adds files w w := ⟨[], rfl, by simp⟩

theorem Adds.trans {w w' w'' : RemoteWorker} (h : Adds files w w') (h' : Adds files w' w'') :
    Adds files w w'' := by
  obtain ⟨new, htrace, hnew⟩ := h
  obtain ⟨new', htrace', hnew'⟩ := h'
  refine ⟨new' ++ new, by rw [htrace', htrace, List.append_assoc], ?_⟩
  intro e he
  rcases List.mem_append.mp he with he | he
  · exact hnew' e he
  · exact hnew e he

theorem Turn.adds {w w' : RemoteWorker} (h : Turn codec p files w w') : Adds files w w' := by
  cases h with
  | @inSent frame send recv next c content hpass hs hcopy hmatch hread =>
      exact ⟨[.setMessage _ _ _, .reset _], rfl, by simp [Event.Truthful, hread]⟩
  | @outReceived r c hs hparse htype hcopy hsuccess hwrite =>
      exact ⟨[.writeFile _ _ _, .reset _, .response _], rfl, by
        simp [Event.Truthful, Files.stores_of_writeFile hwrite]⟩
  | sendWelcome | sendExecute | outSent =>
      exact ⟨[.setMessage _ _ _, .reset _], rfl, by simp [Event.Truthful]⟩
  | welcomed | inReceived | executed =>
      exact ⟨[.reset _, .response _], rfl, by simp [Event.Truthful]⟩
  | inSkipped | inFinished | outSkipped | outFinished | unimplemented => exact ⟨[], rfl, by simp⟩

/-- **Every call of `read_file` and `write_file` is in the trace as it was answered.** -/
theorem dispatch_adds {w w' : RemoteWorker} (h : w.dispatch codec p files = .ok w') :
    Adds files w w' :=
  dispatch_invariant (P := fun w' => Adds files w w') (fun _ _ hw hturn => hw.trans hturn.adds) h
    (.refl files w)

end RemoteWorker

end Distray
