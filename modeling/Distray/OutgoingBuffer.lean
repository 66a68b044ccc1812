/-
The buffer a request is sent from, as in `OutgoingBuffer.hpp`.

It holds one message with its length in front, and how much of it has been sent.  A request
that is put in takes the place of the one before it, whether or not that one has gone out;
nothing in the buffer keeps a second message waiting.
-/
import Distray.Wire

namespace Distray

open Octets

structure OutgoingBuffer where
  fd : Int
  /-- Includes the length in front. -/
  buffer : Bytes
  size : Nat
  sent : Nat
deriving DecidableEq, Repr

namespace OutgoingBuffer

def make (fd : Int) : OutgoingBuffer := ⟨fd, [], 0, 0⟩

/-- Set the outgoing message; `data` is its serialized form.  Sizes are `uint32_t`. -/
def setMessage (b : OutgoingBuffer) (data : Bytes) : OutgoingBuffer :=
  { b with
    size := (data.length + 4) % 2 ^ 32
    buffer := little 4 (htonl (data.length % 2 ^ 32)) ++ data
    sent := 0 }

/-- Whether there is something to write. -/
def needSend (b : OutgoingBuffer) : Bool := b.sent < b.size

/--
`send`, with the result of `::send`: an error or a count.  Also returns the bytes
that went out.
-/
def send (b : OutgoingBuffer) (r : Except Errno Nat) : Except Errno (OutgoingBuffer × Bytes) :=
  if b.needSend then
    match r with
    | .error e => .error e
    | .ok sentHere =>
        .ok ({ b with sent := (b.sent + sentHere) % 2 ^ 32 }, (b.buffer.drop b.sent).take sentHere)
  else .ok (b, [])

/-- Whether `::send` can return this: it takes no more than it was given. -/
def admits (b : OutgoingBuffer) : Except Errno Nat → Bool
  | .error _ => true
  | .ok sentHere => sentHere ≤ b.size - b.sent

/-- The bytes still to go out. -/
def unsent (b : OutgoingBuffer) : Bytes := (b.buffer.drop b.sent).take (b.size - b.sent)

structure WF (b : OutgoingBuffer) : Prop where
  sent : b.sent ≤ b.size
  size : b.size ≤ b.buffer.length
  small : b.size < 2 ^ 32

theorem wf_make (fd : Int) : (make fd).WF := ⟨by simp [make], by simp [make], by simp [make]⟩

@[simp] theorem unsent_make (fd : Int) : (make fd).unsent = [] := by simp [unsent, make]

theorem wf_setMessage (b : OutgoingBuffer) (data : Bytes) : (b.setMessage data).WF := by
  refine ⟨by simp [setMessage], ?_, ?_⟩
  · simp only [setMessage, List.length_append, length_little]
    exact Nat.le_trans (Nat.mod_le _ _) (by omega)
  · exact Nat.mod_lt _ (by omega)

theorem unsent_setMessage (b : OutgoingBuffer) (data : Bytes) (h : data.length + 4 < 2 ^ 32) :
    (b.setMessage data).unsent = frame data := by
  have hsize : data.length % 2 ^ 32 = data.length := Nat.mod_eq_of_lt (by omega)
  have hfull : (data.length + 4) % 2 ^ 32 = data.length + 4 := Nat.mod_eq_of_lt h
  simp only [unsent, setMessage, hsize, hfull, little_htonl, List.drop_zero, Nat.sub_zero, frame_eq]
  exact List.take_of_length_le (by simp; omega)

theorem length_unsent {b : OutgoingBuffer} (h : b.WF) : b.unsent.length = b.size - b.sent := by
  have h1 := h.sent
  have h2 := h.size
  simp only [unsent, List.length_take, List.length_drop]
  omega

theorem needSend_iff {b : OutgoingBuffer} (h : b.WF) : b.needSend = true ↔ b.unsent ≠ [] := by
  have hlen := length_unsent h
  have hsent := h.sent
  rw [← List.length_pos_iff, hlen, needSend, decide_eq_true_eq]
  omega

/--
**One call of `send`.**  A count moves that many bytes from the front of what is
unsent onto the wire.
-/
theorem send_spec {b : OutgoingBuffer} (h : b.WF) {n : Nat} (hfit : b.admits (.ok n) = true) :
    ∃ b' out, b.send (.ok n) = .ok (b', out) ∧ b'.WF ∧ b.unsent = out ++ b'.unsent ∧
      b'.fd = b.fd ∧ (b.needSend = true → out.length = n) := by
  have hsent := h.sent
  have hsize := h.size
  have hsmall := h.small
  have hn : n ≤ b.size - b.sent := by simpa [admits] using hfit
  cases hneed : b.needSend with
  | false =>
      exact ⟨b, [], by simp [send, hneed], h, by simp, rfl, by simp⟩
  | true =>
      have hmod : (b.sent + n) % 2 ^ 32 = b.sent + n := Nat.mod_eq_of_lt (by omega)
      refine ⟨{ b with sent := b.sent + n }, (b.buffer.drop b.sent).take n, ?_, ?_, ?_, rfl, ?_⟩
      · simp only [send, hneed, if_true, hmod]
      · exact ⟨by simp; omega, hsize, hsmall⟩
      · simp only [unsent]
        rw [← List.drop_drop, show b.size - b.sent = n + (b.size - (b.sent + n)) by omega,
          List.take_add]
      · intro _
        rw [List.length_take, List.length_drop]
        omega

/-- A call that succeeds takes the bytes that go out from those unsent. -/
theorem send_eq_ok {b b' : OutgoingBuffer} (h : b.WF) {r : Except Errno Nat} {out : Bytes}
    (hfit : b.admits r = true) (hok : b.send r = .ok (b', out)) :
    b'.WF ∧ b.unsent = out ++ b'.unsent := by
  cases r with
  | error e =>
      unfold send at hok
      split at hok
      · exact absurd hok (by simp)
      · simp only [Except.ok.injEq, Prod.mk.injEq] at hok
        obtain ⟨rfl, rfl⟩ := hok
        exact ⟨h, rfl⟩
  | ok n =>
      obtain ⟨b₁, out₁, hok₁, hwf, hunsent, -⟩ := send_spec h hfit
      rw [hok₁] at hok
      simp only [Except.ok.injEq, Prod.mk.injEq] at hok
      obtain ⟨rfl, rfl⟩ := hok
      exact ⟨hwf, hunsent⟩

end OutgoingBuffer

end Distray
