/-
Where the incoming buffer is written.

Whatever the other side sends, and in whatever pieces, each `recv` writes into the four
bytes of the length or into the storage, and never past the end of either.  The machine
here makes the three calls in any order, with any answer that `recv` may give; a buffer
that has refused a length has ended the program and is in no state at all.  The calls
that a remote worker makes of its buffer are among them.

A length is refused when it is too large, before any storage is made for it, and a length
that is accepted is at most what the storage is made to hold.  So the bounds do not depend on
what the other side says.
-/
import Distray.Proofs.Script

namespace Distray

namespace IncomingBuffer

/-! ### The calls -/

inductive Call
  | receive (r : Except Errno Bytes)
  | getMessage
  | reset

/-- `receive` is called while `need_receive()`, and the other two at any point. -/
def call (b : IncomingBuffer) : Call → Option IncomingBuffer
  | .receive r =>
      if b.needReceive && b.admits r then
        match b.receive r with
        | .ok (.ok b') => some b'
        -- a call that fails has changed nothing
        | .ok (.error _) => some b
        | _ => none
      else none
  | .getMessage => some b
  | .reset => some b.reset

/-- A buffer from its constructor on. -/
def calls (fd : Int) : Machine IncomingBuffer Call := ⟨make fd, call⟩

/-! ### What is written

How much a call may write is what it asks `recv` for, and that is never more than is left of
the four bytes or of the message.  The storage is at least as large as the message, since it
is made larger as soon as the length is known.
-/

/-- The length of what is written into: the storage, or the word that holds the length. -/
def room (b : IncomingBuffer) : Nat := if b.haveSize then b.buffer.length else 4

/-- Every write lands in the room that there is for it. -/
structure InBounds (b : IncomingBuffer) : Prop where
  capacity : b.capacity = b.buffer.length
  header : b.haveSize = false → b.received < 4
  payload : b.haveSize = true →
    b.received ≤ b.size ∧ b.size ≤ b.capacity ∧ b.size ≤ MAX_INCOMING_FILE_SIZE
  asked : b.needReceive = true → 0 < b.bytesLeft ∧ FitsInt b.bytesLeft ∧
    b.received + b.bytesLeft ≤ b.room
  written : b.needReceive = true → ∀ data, b.admits (.ok data) = true →
    b.received + data.length ≤ b.room

theorem WF.bytesLeft {b : IncomingBuffer} (h : b.WF) (hneed : b.needReceive = true) :
    0 < b.bytesLeft ∧ FitsInt b.bytesLeft ∧ b.received + b.bytesLeft ≤ b.room := by
  have hcapacity := h.capacity
  unfold IncomingBuffer.bytesLeft room
  by_cases hs : b.haveSize = true
  · obtain ⟨hreceived, hsize, hmax⟩ := h.payload hs
    have hlt : b.received < b.size := by simpa [needReceive, hs] using hneed
    simp only [MAX_INCOMING_FILE_SIZE] at hmax
    have hfits : FitsInt ((b.size : Int) - b.received) := ⟨by omega, by omega⟩
    rw [if_pos hs, if_pos hs, wrapInt_of_fits hfits]
    exact ⟨by omega, hfits, by omega⟩
  · have hlt := (h.header (by simpa using hs)).1
    have hfits : FitsInt (4 - (b.received : Int)) := ⟨by omega, by omega⟩
    rw [if_neg hs, if_neg hs, wrapInt_of_fits hfits]
    exact ⟨by omega, hfits, by omega⟩

theorem WF.inBounds {b : IncomingBuffer} (h : b.WF) : b.InBounds where
  capacity := h.capacity
  header hs := (h.header hs).1
  payload := h.payload
  asked := h.bytesLeft
  written := by
    intro hneed data hfit
    have hle : (data.length : Int) ≤ b.bytesLeft := by simpa [admits] using hfit
    have hroom := (h.bytesLeft hneed).2.2
    omega

theorem WF.call {b b' : IncomingBuffer} {c : Call} (h : b.WF) (hcall : b.call c = some b') :
    b'.WF := by
  cases c with
  | receive r =>
      rw [IncomingBuffer.call] at hcall
      split at hcall
      · rename_i hguard
        simp only [Bool.and_eq_true] at hguard
        split at hcall
        · rename_i b₁ hok
          rw [Option.some.injEq] at hcall
          exact hcall ▸ h.receive hguard.2 hok
        · rw [Option.some.injEq] at hcall
          exact hcall ▸ h
        · exact absurd hcall (by simp)
      · exact absurd hcall (by simp)
  | getMessage =>
      rw [IncomingBuffer.call, Option.some.injEq] at hcall
      exact hcall ▸ h
  | reset =>
      rw [IncomingBuffer.call, Option.some.injEq] at hcall
      exact hcall ▸ h.reset

theorem reach_wf {ok : IncomingBuffer → Call → Prop} {fd : Int} {b : IncomingBuffer}
    (h : (calls fd).Reach ok b) : b.WF :=
  Machine.Reach.invariant (wf_make fd) (fun _ _ _ hb _ hcall => hb.call hcall) h

/-- **No call writes outside the buffer**, whatever the other side sends. -/
theorem writes_stay_inside {fd : Int} {b : IncomingBuffer}
    (h : (calls fd).Reach Machine.Any b) : b.InBounds := (reach_wf h).inBounds

/-- A length of 2, in two pieces, and one of the two bytes. -/
def halfway : IncomingBuffer :=
  ((calls 4).exec Machine.Any (make 4)
    [.receive (.ok [0, 0, 0]), .getMessage, .receive (.ok [2]), .receive (.ok [7])]).getD (make 4)

theorem writes_stay_inside_halfway : halfway.InBounds :=
  writes_stay_inside (Machine.Run.of_replay (m := calls 4) (by decide))

end IncomingBuffer

/-! ### The buffer of a worker -/

namespace RemoteWorker

variable {codec : Codec} {p : Parameters} {files : Files}

theorem Turn.buffer {w w' : RemoteWorker} (h : Turn codec p files w w') :
    w'.incomingBuffer = w.incomingBuffer ∨ w'.incomingBuffer = w.incomingBuffer.reset := by
  cases h <;> first | exact Or.inl rfl | exact Or.inr rfl

theorem dispatch_calls {fd : Int} {w w' : RemoteWorker}
    (h : w.dispatch codec p files = .ok w')
    (hw : (IncomingBuffer.calls fd).Reach Machine.Any w.incomingBuffer) :
    (IncomingBuffer.calls fd).Reach Machine.Any w'.incomingBuffer := by
  refine dispatch_invariant
    (P := fun w => (IncomingBuffer.calls fd).Reach Machine.Any w.incomingBuffer) ?_ h hw
  intro w₁ w₂ hw₁ hturn
  rcases hturn.buffer with hsame | hreset
  · rw [hsame]
    exact hw₁
  · rw [hreset]
    exact hw₁.step (i := .reset) trivial rfl

end RemoteWorker

namespace Session

open RemoteWorker

variable {codec : Codec} {p : Parameters}

/-- `receive` is only called while the buffer wants more. -/
def ReceivesWhenNeeded (w : RemoteWorker) : Input → Prop
  | .recv _ _ => w.incomingBuffer.needReceive = true
  | _ => True

/-- **What a session does to the buffer of its worker are calls in some order.** -/
theorem reach_calls {addr : Nat} {fd : Int} {w : RemoteWorker}
    (h : (machine codec p addr fd).Reach ReceivesWhenNeeded w) :
    (IncomingBuffer.calls fd).Reach Machine.Any w.incomingBuffer := by
  refine Machine.Reach.invariant
    (P := fun w => (IncomingBuffer.calls fd).Reach Machine.Any w.incomingBuffer) .init ?_ h
  intro w input w' hw hneed hstep
  change step codec p w input = some w' at hstep
  cases input with
  | start files =>
      rw [Session.step] at hstep
      split at hstep
      · exact dispatch_calls (returned_eq_some.mp hstep) hw
      · exact absurd hstep (by simp)
  | recv r files =>
      obtain ⟨hfit, hok⟩ := step_recv hstep
      obtain ⟨b, hb, hcases⟩ := receive_eq_ok hok
      have hcall : (IncomingBuffer.calls fd).step w.incomingBuffer (.receive r) = some b := by
        have hneed' : w.incomingBuffer.needReceive = true := hneed
        show w.incomingBuffer.call (.receive r) = some b
        simp [IncomingBuffer.call, hneed', hfit, hb]
      have hreach : (IncomingBuffer.calls fd).Reach Machine.Any b :=
        Machine.Run.step hw trivial hcall
      rcases hcases with ⟨-, rfl⟩ | ⟨-, hdispatch⟩
      · exact hreach
      · exact dispatch_calls hdispatch hreach
  | send r =>
      obtain ⟨-, out, hok⟩ := step_send hstep
      obtain ⟨b, -, rfl⟩ := send_eq_ok hok
      exact hw
  | runFrame frame files =>
      exact dispatch_calls (runFrame_eq_ok (returned_eq_some.mp hstep)).2 hw

/-- So the buffer of a worker is never written outside either. -/
theorem reach_inBounds {addr : Nat} {fd : Int} {w : RemoteWorker}
    (h : (machine codec p addr fd).Reach ReceivesWhenNeeded w) : w.incomingBuffer.InBounds :=
  (IncomingBuffer.reach_wf (reach_calls h)).inBounds

end Session

end Distray
