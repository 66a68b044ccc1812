/-
The buffer a response is received into, as in `IncomingBuffer.hpp`.

`size` and `received` mean different things before and after the length is known:
first `received` counts bytes of `size`, which is being assembled in place and is
still in network order, then it counts bytes of `buffer`.  `taken` undoes that
confusion: it is the run of bytes received since the last `reset`, and everything
proved about the buffer is proved through it.
-/
import Distray.Wire

namespace Distray

open Octets

structure IncomingBuffer where
  fd : Int
  /-- The storage; its length is what `new` allocated. -/
  buffer : Bytes
  size : Nat
  haveSize : Bool
  received : Nat
  capacity : Nat
deriving DecidableEq, Repr

namespace IncomingBuffer

def make (fd : Int) : IncomingBuffer := ⟨fd, [], 0, false, 0, 0⟩

/-- The bytes handed to the parser. -/
def getMessage (b : IncomingBuffer) : Bytes := b.buffer.take b.size

/-- Get ready for the next message. -/
def reset (b : IncomingBuffer) : IncomingBuffer :=
  { b with size := 0, haveSize := false, received := 0 }

/-- Whether more bytes are wanted for this message. -/
def needReceive (b : IncomingBuffer) : Bool := !b.haveSize || b.received < b.size

/-- `bytes_left`, how much `recv` is asked for; the subtraction is made in 32 bits. -/
def bytesLeft (b : IncomingBuffer) : Int :=
  if b.haveSize then wrapInt ((b.size : Int) - b.received) else wrapInt (4 - (b.received : Int))

/--
`receive`, with the result of `recv`: an error, or the bytes it delivered, none of
them when the other side has closed.
-/
def receive (b : IncomingBuffer) : Except Errno Bytes → Outcome (Except Errno IncomingBuffer)
  | .error e => .ok (.error e)
  | .ok data =>
      if b.haveSize then
        if data.length = 0 then .ok (.error .ECONNRESET)
        else .ok (.ok { b with
          buffer := overwrite b.buffer b.received data
          received := (b.received + data.length) % 2 ^ 32 })
      else
        let size := ofLittle (overwrite (little 4 b.size) b.received data)
        let received := (b.received + data.length) % 2 ^ 32
        if received = 4 then
          let size := ntohl size
          if MAX_INCOMING_FILE_SIZE < size then .exit (.tooLarge size)
          else if b.capacity < size then
            -- `new uint8_t[m_size]`; the contents are written before they are read
            .ok (.ok { b with
              size := size, haveSize := true, received := 0
              buffer := List.replicate size 0, capacity := size })
          else .ok (.ok { b with size := size, haveSize := true, received := 0 })
        else .ok (.ok { b with size := size, received := received })

/-- Whether `recv` can return this: it delivers no more than it was asked for. -/
def admits (b : IncomingBuffer) : Except Errno Bytes → Bool
  | .error _ => true
  | .ok data => (data.length : Int) ≤ b.bytesLeft

/-! ### Well-formed buffers

`received` counts bytes of the length until all four are there, and then bytes of the
message, so there is a case for each.  The octets of a length that is not all there are
those of `size` in memory, the rest of which is whatever was there before.
-/

structure WF (b : IncomingBuffer) : Prop where
  capacity : b.capacity = b.buffer.length
  header : b.haveSize = false → b.received < 4 ∧ b.size < 2 ^ 32
  payload : b.haveSize = true →
    b.received ≤ b.size ∧ b.size ≤ b.capacity ∧ b.size ≤ MAX_INCOMING_FILE_SIZE

/-- Every byte received since the last `reset`, in order. -/
def taken (b : IncomingBuffer) : Bytes :=
  if b.haveSize then big 4 b.size ++ b.buffer.take b.received
  else (little 4 b.size).take b.received

/-- A message has begun to arrive and is not all there. -/
def partly (b : IncomingBuffer) : Bool := b.taken ≠ [] && b.needReceive

theorem wf_make (fd : Int) : (make fd).WF := by
  refine ⟨rfl, fun _ => ⟨by simp [make], by simp [make]⟩, ?_⟩
  intro h
  simp [make] at h

@[simp] theorem taken_make (fd : Int) : (make fd).taken = [] := by simp [taken, make]

theorem WF.reset {b : IncomingBuffer} (h : b.WF) : b.reset.WF := by
  refine ⟨h.capacity, fun _ => ⟨by simp [IncomingBuffer.reset], by simp [IncomingBuffer.reset]⟩, ?_⟩
  intro hs
  simp [IncomingBuffer.reset] at hs

@[simp] theorem taken_reset (b : IncomingBuffer) : b.reset.taken = [] := by
  simp [taken, IncomingBuffer.reset]

theorem length_taken {b : IncomingBuffer} (h : b.WF) :
    b.taken.length = if b.haveSize then 4 + b.received else b.received := by
  unfold taken
  cases hs : b.haveSize with
  | true =>
      obtain ⟨hrec, hcap, -⟩ := h.payload hs
      have hcapacity := h.capacity
      simp only [if_true, List.length_append, length_big, List.length_take]
      omega
  | false =>
      have hrec := (h.header hs).1
      simp only [Bool.false_eq_true, if_false, List.length_take, length_little]
      omega

/-- Once the length is known, it is the number the first four bytes stand for. -/
theorem decode_taken {b : IncomingBuffer} (h : b.WF) (hs : b.haveSize = true) :
    lengthHeader.decode (b.taken.take 4) = b.size := by
  have hmax := (h.payload hs).2.2
  have htake : b.taken.take 4 = lengthHeader.encode b.size := by
    simp only [taken, hs, if_true]
    exact List.take_left' (length_big 4 b.size)
  rw [htake]
  refine lengthHeader.decode_encode _ ?_
  simp only [MAX_INCOMING_FILE_SIZE] at hmax
  simp only [lengthHeader_bound]
  omega

/-- **What `recv` is asked for is what the frame still misses.** -/
theorem bytesLeft_eq {b : IncomingBuffer} (h : b.WF) :
    b.bytesLeft = lengthHeader.missing b.taken := by
  have hlen := length_taken h
  unfold Header.missing bytesLeft
  cases hs : b.haveSize with
  | true =>
      obtain ⟨hrec, -, hmax⟩ := h.payload hs
      simp only [MAX_INCOMING_FILE_SIZE] at hmax
      simp only [hs, if_true] at hlen
      rw [lengthHeader_width, decode_taken h hs, if_pos rfl, if_neg (by omega),
        wrapInt_of_fits ⟨by omega, by omega⟩]
      omega
  | false =>
      have hrec := (h.header hs).1
      simp only [hs, Bool.false_eq_true, if_false] at hlen
      rw [lengthHeader_width, if_neg (by simp), if_pos (by omega),
        wrapInt_of_fits ⟨by omega, by omega⟩]
      omega

/-- **The buffer wants more exactly while the frame is incomplete.** -/
theorem needReceive_iff {b : IncomingBuffer} (h : b.WF) :
    b.needReceive = true ↔ lengthHeader.missing b.taken ≠ 0 := by
  have hlen := length_taken h
  unfold Header.missing needReceive
  cases hs : b.haveSize with
  | true =>
      obtain ⟨hrec, -, -⟩ := h.payload hs
      simp only [hs, if_true] at hlen
      rw [lengthHeader_width, decode_taken h hs, if_neg (by omega)]
      simp only [Bool.not_true, Bool.false_or, decide_eq_true_eq]
      omega
  | false =>
      have hrec := (h.header hs).1
      simp only [hs, Bool.false_eq_true, if_false] at hlen
      rw [lengthHeader_width, if_pos (by omega)]
      simp only [Bool.not_false, Bool.true_or, true_iff]
      omega

/-- A complete message is the payload of the frame that was taken. -/
theorem taken_eq_frame {b : IncomingBuffer} (h : b.WF) (hdone : b.needReceive = false) :
    b.taken = frame b.getMessage ∧ b.getMessage.length ≤ MAX_INCOMING_FILE_SIZE := by
  have hs : b.haveSize = true := by
    cases hs : b.haveSize with
    | true => rfl
    | false => simp [needReceive, hs] at hdone
  obtain ⟨hrec, hcap, hmax⟩ := h.payload hs
  have hfull : b.received = b.size := by
    simp only [needReceive, hs, Bool.not_true, Bool.false_or, decide_eq_false_iff_not] at hdone
    omega
  have hlen : b.getMessage.length = b.size := by
    rw [getMessage, List.length_take, ← h.capacity]
    omega
  refine ⟨?_, by omega⟩
  rw [frame_eq, hlen]
  simp only [taken, hs, if_true, hfull, getMessage]

/-! ### What one call does

One call of `receive` makes one call of `recv`, for what is missing of the length or else of
the message.  A caller need not know which: `Extends` says that what was taken is longer by
what has arrived, and nothing in `receive` looks further than the end of the message.
-/

/-- A closed connection goes unnoticed while the length is still being received. -/
theorem receive_closed_header {b : IncomingBuffer} (h : b.WF) (hs : b.haveSize = false) :
    b.receive (.ok []) = .ok (.ok b) := by
  obtain ⟨hrec, hsize⟩ := h.header hs
  have hword : ofLittle (overwrite (little 4 b.size) b.received []) = b.size := by
    simp only [overwrite, List.length_nil, Nat.add_zero, List.append_nil, List.take_append_drop,
      ofLittle_little]
    exact Nat.mod_eq_of_lt (by omega)
  have hcount : (b.received + ([] : Bytes).length) % 2 ^ 32 = b.received :=
    Nat.mod_eq_of_lt (by simp; omega)
  obtain ⟨fd, buffer, size, haveSize, received, capacity⟩ := b
  simp only at hs hrec hsize hword hcount
  subst hs
  simp only [receive, Bool.false_eq_true, if_false, hword, hcount]
  rw [if_neg (by omega)]

theorem receive_closed_payload {b : IncomingBuffer} (hs : b.haveSize = true) :
    b.receive (.ok []) = .ok (.error .ECONNRESET) := by
  simp [receive, hs]

/-- What a successful call has done: the bytes were added to those taken. -/
def Extends (b b' : IncomingBuffer) (data : Bytes) : Prop :=
  b'.WF ∧ b'.taken = b.taken ++ data ∧ b'.fd = b.fd

private theorem receive_payload {b : IncomingBuffer} (h : b.WF) (hs : b.haveSize = true)
    {data : Bytes} (hne : data ≠ []) (hfit : (data.length : Int) ≤ b.bytesLeft) :
    ∃ b', b.receive (.ok data) = .ok (.ok b') ∧ Extends b b' data := by
  obtain ⟨hrec, hcap, hmax⟩ := h.payload hs
  have hcapacity := h.capacity
  simp only [MAX_INCOMING_FILE_SIZE] at hmax
  have hleft : b.received + data.length ≤ b.size := by
    simp only [bytesLeft, hs, if_true] at hfit
    rw [wrapInt_of_fits ⟨by omega, by omega⟩] at hfit
    omega
  have hmod : (b.received + data.length) % 2 ^ 32 = b.received + data.length :=
    Nat.mod_eq_of_lt (by omega)
  have hlen : data.length ≠ 0 := by simpa using hne
  refine ⟨{ b with
      buffer := overwrite b.buffer b.received data
      received := b.received + data.length }, ?_, ⟨?_, ?_, ?_⟩, ?_, rfl⟩
  · simp only [receive, hs, if_true, if_neg hlen, hmod]
  · rw [length_overwrite (by omega)]
    exact hcapacity
  · intro hf
    exact absurd hs (by simpa using hf)
  · intro _
    exact ⟨hleft, hcap, by simp only [MAX_INCOMING_FILE_SIZE]; omega⟩
  · simp only [taken, hs, if_true]
    rw [take_overwrite (by omega), List.append_assoc]

private theorem receive_header {b : IncomingBuffer} (h : b.WF) (hs : b.haveSize = false)
    {data : Bytes} (hfit : b.received + data.length < 4) :
    ∃ b', b.receive (.ok data) = .ok (.ok b') ∧ Extends b b' data := by
  obtain ⟨hrec, hsize⟩ := h.header hs
  have hmod : (b.received + data.length) % 2 ^ 32 = b.received + data.length :=
    Nat.mod_eq_of_lt (by omega)
  have hword : (overwrite (little 4 b.size) b.received data).length = 4 := by
    rw [length_overwrite] <;> rw [length_little]
    omega
  have hlt := ofLittle_lt (overwrite (little 4 b.size) b.received data)
  have hback := little_ofLittle (overwrite (little 4 b.size) b.received data)
  rw [hword] at hlt hback
  refine ⟨{ b with
      size := ofLittle (overwrite (little 4 b.size) b.received data)
      received := b.received + data.length }, ?_, ⟨h.capacity, ?_, ?_⟩, ?_, rfl⟩
  · simp only [receive, hs, Bool.false_eq_true, if_false, hmod]
    rw [if_neg (by omega)]
  · intro _
    exact ⟨hfit, by simpa using hlt⟩
  · intro ht
    exact absurd ht (by simp [hs])
  · simp only [taken, hs, Bool.false_eq_true, if_false]
    rw [hback, take_overwrite (by rw [length_little]; omega)]

private theorem receive_length {b : IncomingBuffer} (h : b.WF) (hs : b.haveSize = false)
    {data : Bytes} (hfit : b.received + data.length = 4) :
    (∃ b', b.receive (.ok data) = .ok (.ok b') ∧ Extends b b' data) ∨
      b.receive (.ok data) = .exit (.tooLarge (lengthHeader.decode (b.taken ++ data))) ∧
        MAX_INCOMING_FILE_SIZE < lengthHeader.decode (b.taken ++ data) := by
  obtain ⟨hrec, hsize⟩ := h.header hs
  have hmod : (b.received + data.length) % 2 ^ 32 = 4 := by omega
  -- the word in memory is now the four bytes in the order they arrived
  have hword : overwrite (little 4 b.size) b.received data = b.taken ++ data := by
    simp only [overwrite, hfit, taken, hs, Bool.false_eq_true, if_false]
    rw [List.drop_of_length_le (by rw [length_little]), List.append_nil]
  have hfour : (b.taken ++ data).length = 4 := by
    rw [List.length_append, length_taken h]
    simp only [hs, Bool.false_eq_true, if_false]
    omega
  have hdecode : ntohl (ofLittle (overwrite (little 4 b.size) b.received data))
      = lengthHeader.decode (b.taken ++ data) := by
    rw [hword, ntohl_ofLittle hfour]
    rfl
  have hbig : big 4 (lengthHeader.decode (b.taken ++ data)) = b.taken ++ data := by
    have hback := little_ofLittle (b.taken ++ data).reverse
    rw [List.length_reverse, hfour] at hback
    show (little 4 (ofLittle (b.taken ++ data).reverse)).reverse = _
    rw [hback, List.reverse_reverse]
  generalize hn : lengthHeader.decode (b.taken ++ data) = n at hdecode hbig ⊢
  by_cases hmax : MAX_INCOMING_FILE_SIZE < n
  · refine Or.inr ⟨?_, hmax⟩
    simp only [receive, hs, Bool.false_eq_true, if_false, hmod, hdecode, if_pos hmax, if_true]
  · have hle : n ≤ MAX_INCOMING_FILE_SIZE := Nat.not_lt.mp hmax
    refine Or.inl ?_
    by_cases hcap : b.capacity < n
    · refine ⟨{ b with
          size := n, haveSize := true, received := 0
          buffer := List.replicate n 0, capacity := n }, ?_, ⟨?_, ?_, ?_⟩, ?_, rfl⟩
      · simp only [receive, hs, Bool.false_eq_true, if_false, hmod, hdecode, if_neg hmax,
          if_pos hcap, if_true]
      · simp
      · intro hf
        exact absurd hf (by simp)
      · intro _
        exact ⟨Nat.zero_le _, Nat.le_refl _, hle⟩
      · simp only [taken, if_true, List.take_zero, List.append_nil]
        exact hbig
    · refine ⟨{ b with size := n, haveSize := true, received := 0 }, ?_, ⟨h.capacity, ?_, ?_⟩,
        ?_, rfl⟩
      · simp only [receive, hs, Bool.false_eq_true, if_false, hmod, hdecode, if_neg hmax,
          if_neg hcap, if_true]
      · intro hf
        exact absurd hf (by simp)
      · intro _
        exact ⟨Nat.zero_le _, Nat.not_lt.mp hcap, hle⟩
      · simp only [taken, if_true, List.take_zero, List.append_nil]
        exact hbig

/--
**One call of `receive`.**  Bytes that `recv` may deliver are added to the bytes
taken, unless they complete a length that is refused.
-/
theorem receive_spec {b : IncomingBuffer} (h : b.WF) {data : Bytes} (hne : data ≠ [])
    (hfit : b.admits (.ok data) = true) :
    (∃ b', b.receive (.ok data) = .ok (.ok b') ∧ Extends b b' data) ∨
      (b.taken ++ data).length = 4 ∧
      b.receive (.ok data) = .exit (.tooLarge (lengthHeader.decode (b.taken ++ data))) ∧
        MAX_INCOMING_FILE_SIZE < lengthHeader.decode (b.taken ++ data) := by
  have hfit' : (data.length : Int) ≤ b.bytesLeft := by simpa [admits] using hfit
  cases hs : b.haveSize with
  | true => exact Or.inl (receive_payload h hs hne hfit')
  | false =>
      have hrec := (h.header hs).1
      have hle : b.received + data.length ≤ 4 := by
        simp only [bytesLeft, hs, Bool.false_eq_true, if_false] at hfit'
        rw [wrapInt_of_fits ⟨by omega, by omega⟩] at hfit'
        omega
      by_cases hfour : b.received + data.length = 4
      · rcases receive_length h hs hfour with hok | hbad
        · exact Or.inl hok
        · refine Or.inr ⟨?_, hbad⟩
          rw [List.length_append, length_taken h]
          simpa [hs] using hfour
      · exact Or.inl (receive_header h hs (by omega))

/-- Whether `recv` reports, in a way `receive` notices, that the other side is gone. -/
def disconnects (b : IncomingBuffer) : Except Errno Bytes → Bool
  | .error e => e = .ECONNRESET
  | .ok data => data.isEmpty && b.haveSize

/-- **When `receive` fails with `ECONNRESET`.** -/
theorem receive_eq_reset (b : IncomingBuffer) (r : Except Errno Bytes) :
    b.receive r = .ok (.error .ECONNRESET) ↔ b.disconnects r = true := by
  cases r with
  | error e => simp [receive, disconnects]
  | ok data =>
      unfold receive disconnects
      cases hs : b.haveSize with
      | true =>
          simp only [if_true, Bool.and_true, List.isEmpty_iff]
          split
          · rename_i hlen
            simp [List.length_eq_zero_iff.mp hlen]
          · rename_i hlen
            simp only [Outcome.ok.injEq, reduceCtorEq, false_iff]
            exact fun h => hlen (by rw [h]; rfl)
      | false =>
          simp only [Bool.false_eq_true, if_false, Bool.and_false]
          split <;> (try split) <;> (try split) <;> simp

theorem receive_extends {b b' : IncomingBuffer} (h : b.WF) {data : Bytes}
    (hfit : b.admits (.ok data) = true) (hok : b.receive (.ok data) = .ok (.ok b')) :
    b'.WF ∧ b'.taken = b.taken ++ data := by
  by_cases hne : data = []
  · subst hne
    cases hs : b.haveSize with
    | true => simp [receive_closed_payload hs] at hok
    | false =>
        rw [receive_closed_header h hs] at hok
        simp only [Outcome.ok.injEq, Except.ok.injEq] at hok
        rw [← hok, List.append_nil]
        exact ⟨h, rfl⟩
  · rcases receive_spec h hne hfit with ⟨b₁, hok₁, hext⟩ | ⟨-, hexit, -⟩
    · rw [hok₁] at hok
      simp only [Outcome.ok.injEq, Except.ok.injEq] at hok
      exact hok ▸ ⟨hext.1, hext.2.1⟩
    · exact absurd (hexit.symm.trans hok) (by simp)

theorem WF.receive {b b' : IncomingBuffer} (h : b.WF) {r : Except Errno Bytes}
    (hfit : b.admits r = true) (hok : b.receive r = .ok (.ok b')) : b'.WF := by
  cases r with
  | error e => simp [IncomingBuffer.receive] at hok
  | ok data => exact (receive_extends h hfit hok).1

end IncomingBuffer

end Distray
