/-
Messages survive being cut up.

The kernel may take any part of what it is offered and deliver any part of what it
is asked for.  Here a list of such short counts drives the two buffers: each call of
`::send` or `recv` consumes the next count, capped at what was offered or asked for,
so a list of positive counts stands for any behaviour the kernel can show.

Both loops are taken one message at a time.  The sender's loop moves the unsent bytes
to the wire; the receiver's keeps `taken ++ wire` constant, and `Header.missing` says
it can neither stop early nor reach into the next message.
-/
import Distray.RemoteWorker

namespace Distray

/-! ### Sending -/

namespace OutgoingBuffer

/-- Call `send` until there is nothing to write: what went out, and the counts not used. -/
def sendLoop : List Nat → OutgoingBuffer → Option (OutgoingBuffer × Bytes × List Nat)
  | [], b => if b.needSend then none else some (b, [], [])
  | count :: counts, b =>
      if b.needSend then
        match b.send (.ok (min count (b.size - b.sent))) with
        | .error _ => none
        | .ok (b, out) =>
            match sendLoop counts b with
            | none => none
            | some (b, more, left) => some (b, out ++ more, left)
      else some (b, [], count :: counts)

/-- Set each message in turn and send it. -/
def sendAll : List Bytes → List Nat → OutgoingBuffer → Option (Bytes × List Nat)
  | [], counts, _ => some ([], counts)
  | data :: rest, counts, b =>
      match sendLoop counts (b.setMessage data) with
      | none => none
      | some (b, out, left) =>
          match sendAll rest left b with
          | none => none
          | some (more, left) => some (out ++ more, left)

/-- Positive counts, as many as there are bytes, put out exactly what was unsent. -/
theorem sendLoop_spec :
    ∀ (counts : List Nat) (b : OutgoingBuffer), b.WF → (∀ c ∈ counts, 0 < c) →
      b.unsent.length ≤ counts.length →
      ∃ b' left, sendLoop counts b = some (b', b.unsent, left) ∧
        (∀ c ∈ left, 0 < c) ∧ counts.length ≤ left.length + b.unsent.length := by
  intro counts
  induction counts with
  | nil =>
      intro b hwf _ hlen
      have hnil : b.unsent = [] := List.length_eq_zero_iff.mp (Nat.le_zero.mp hlen)
      have hneed : b.needSend = false := by
        rw [← Bool.not_eq_true, needSend_iff hwf, hnil]
        simp
      exact ⟨b, [], by simp [sendLoop, hneed, hnil], by simp, by simp⟩
  | cons count counts ih =>
      intro b hwf hpos hlen
      cases hneed : b.needSend with
      | false =>
          have hnil : b.unsent = [] := by
            have := needSend_iff hwf
            simpa [hneed] using this
          exact ⟨b, count :: counts, by simp [sendLoop, hneed, hnil], hpos, by simp⟩
      | true =>
          have hcount : 0 < count := hpos count (by simp)
          have hleft := length_unsent hwf
          have hsome : 0 < b.unsent.length := by
            rw [List.length_pos_iff]
            exact (needSend_iff hwf).mp hneed
          obtain ⟨b', out, hsend, hwf', hsplit, -, hout⟩ :=
            send_spec hwf (n := min count (b.size - b.sent)) (by simp [admits])
          have hlenOut := hout hneed
          have hsum : b.unsent.length = out.length + b'.unsent.length := by
            rw [hsplit, List.length_append]
          obtain ⟨b'', left, hloop, hpos', hcount'⟩ :=
            ih b' hwf' (fun c hc => hpos c (by simp [hc])) (by simp at hlen; omega)
          refine ⟨b'', left, ?_, hpos', by simp; omega⟩
          simp only [sendLoop, hneed, if_true, hsend, hloop]
          rw [hsplit]

theorem sendAll_spec :
    ∀ (payloads : List Bytes) (counts : List Nat) (b : OutgoingBuffer),
      (∀ data ∈ payloads, data.length ≤ MAX_INCOMING_FILE_SIZE) → (∀ c ∈ counts, 0 < c) →
      (payloads.flatMap frame).length ≤ counts.length →
      ∃ left, sendAll payloads counts b = some (payloads.flatMap frame, left) := by
  intro payloads
  induction payloads with
  | nil => intro counts b _ _ _; exact ⟨counts, rfl⟩
  | cons data rest ih =>
      intro counts b hmax hpos hlen
      have hdata := hmax data (by simp)
      simp only [MAX_INCOMING_FILE_SIZE] at hdata
      have hunsent := unsent_setMessage b data (by omega)
      simp only [List.flatMap_cons, List.length_append] at hlen
      obtain ⟨b', left, hloop, hpos', hcount⟩ :=
        sendLoop_spec counts (b.setMessage data) (wf_setMessage b data) hpos
          (by rw [hunsent]; omega)
      rw [hunsent] at hloop hcount
      obtain ⟨left', hall⟩ :=
        ih left b' (fun d hd => hmax d (by simp [hd])) hpos' (by omega)
      exact ⟨left', by simp only [sendAll, hloop, hall, List.flatMap_cons]⟩

end OutgoingBuffer

/-! ### Receiving

The receiver's loop is left at the end of a message and entered again for the next, and the
buffer is reset in between.  Each time what has been taken and what is still on the wire are
together the rest of the stream, so the frames come out as they were put in.
-/

namespace IncomingBuffer

/-- What `recv` delivers of a stream when it cuts its answer short at `count`. -/
def chunk (b : IncomingBuffer) (count : Nat) (wire : Bytes) : Bytes :=
  wire.take (min count b.bytesLeft.toNat)

/-- Call `receive` while it is needed: what is left of the stream and of the counts. -/
def receiveLoop : List Nat → IncomingBuffer → Bytes → Option (IncomingBuffer × Bytes × List Nat)
  | [], b, wire => if b.needReceive then none else some (b, wire, [])
  | count :: counts, b, wire =>
      if b.needReceive then
        match b.receive (.ok (b.chunk count wire)) with
        | .ok (.ok b') => receiveLoop counts b' (wire.drop (b.chunk count wire).length)
        | _ => none
      else some (b, wire, count :: counts)

/--
Receive so many messages: each is taken with `get_message` when it is complete, and
`reset` follows.  With each message comes what was left of the stream at that time.
-/
def receiveAll : Nat → List Nat → IncomingBuffer → Bytes →
    Option (List (Bytes × Bytes) × List Nat)
  | 0, counts, _, _ => some ([], counts)
  | n + 1, counts, b, wire =>
      match receiveLoop counts b wire with
      | none => none
      | some (b, wire, left) =>
          match receiveAll n left b.reset wire with
          | none => none
          | some (more, left) => some ((b.getMessage, wire) :: more, left)

/-- Bytes that continue a frame the program accepts are taken. -/
theorem receive_chunk {b : IncomingBuffer} (hwf : b.WF) {payload rest wire data : Bytes}
    (hmax : payload.length ≤ MAX_INCOMING_FILE_SIZE)
    (hstream : b.taken ++ (data ++ wire) = frame payload ++ rest)
    (hle : b.taken.length ≤ (frame payload).length) (hne : data ≠ [])
    (hfit : b.admits (.ok data) = true) :
    ∃ b', b.receive (.ok data) = .ok (.ok b') ∧ Extends b b' data ∧
      b'.taken.length ≤ (frame payload).length := by
  simp only [MAX_INCOMING_FILE_SIZE] at hmax
  have hbound : payload.length < lengthHeader.bound := by simp only [lengthHeader_bound]; omega
  have hmiss : b.taken.length + lengthHeader.missing b.taken ≤ (frame payload).length :=
    Header.missing_le hbound hstream hle
  have hdata : (data.length : Int) ≤ lengthHeader.missing b.taken := by
    simpa [admits, bytesLeft_eq hwf] using hfit
  have hlen : (b.taken ++ data).length ≤ (frame payload).length := by
    rw [List.length_append]
    omega
  rcases receive_spec hwf hne hfit with ⟨b', hok, hext⟩ | ⟨hfour, -, hbig⟩
  · exact ⟨b', hok, hext, by rw [hext.2.1]; exact hlen⟩
  · -- the four bytes are the payload's own length, which is not too large
    exfalso
    rw [← List.append_assoc] at hstream
    have htake := Header.take_of_append_eq hstream hlen
    rw [hfour] at htake
    have hhead : (frame payload).take 4 = lengthHeader.encode payload.length :=
      lengthHeader.take_frame payload
    rw [htake, hhead, lengthHeader.decode_encode _ hbound] at hbig
    simp only [MAX_INCOMING_FILE_SIZE] at hbig
    omega

/-- A buffer that wants no more holds exactly the frame it has been taking. -/
theorem getMessage_of_frame {b : IncomingBuffer} (hwf : b.WF) {payload rest wire : Bytes}
    (hmax : payload.length ≤ MAX_INCOMING_FILE_SIZE)
    (hstream : b.taken ++ wire = frame payload ++ rest)
    (hle : b.taken.length ≤ (frame payload).length) (hneed : b.needReceive = false) :
    b.taken = frame payload ∧ wire = rest ∧ b.getMessage = payload := by
  have hbound : payload.length < lengthHeader.bound := by
    simp only [MAX_INCOMING_FILE_SIZE] at hmax
    simp only [lengthHeader_bound]
    omega
  have hzero : lengthHeader.missing b.taken = 0 := by
    by_contra hne
    exact absurd ((needReceive_iff hwf).mpr hne) (by simp [hneed])
  have htaken : b.taken = frame payload := (Header.missing_eq_zero_iff hbound hstream hle).mp hzero
  have hpayload := (taken_eq_frame hwf hneed).1
  rw [htaken] at hstream hpayload
  refine ⟨htaken, List.append_cancel_left hstream, ?_⟩
  have hdrop := congrArg (List.drop 4) hpayload
  exact (lengthHeader.drop_frame b.getMessage).symm.trans
    (hdrop.symm.trans (lengthHeader.drop_frame payload))

/-- A positive count brings at least a byte of what is missing, and no more than that. -/
theorem receive_count {payload rest wire : Bytes} {b : IncomingBuffer} {count : Nat}
    (hmax : payload.length ≤ MAX_INCOMING_FILE_SIZE) (hwf : b.WF)
    (hstream : b.taken ++ wire = frame payload ++ rest)
    (hle : b.taken.length ≤ (frame payload).length) (hneed : b.needReceive = true)
    (hcount : 0 < count) :
    ∃ b', b.receive (.ok (b.chunk count wire)) = .ok (.ok b') ∧ b'.WF ∧
      b'.taken ++ wire.drop (b.chunk count wire).length = frame payload ++ rest ∧
      b.taken.length < b'.taken.length ∧ b'.taken.length ≤ (frame payload).length := by
  have hbound : payload.length < lengthHeader.bound := by
    simp only [MAX_INCOMING_FILE_SIZE] at hmax
    simp only [lengthHeader_bound]
    omega
  have hmiss : b.taken.length + lengthHeader.missing b.taken ≤ (frame payload).length :=
    Header.missing_le hbound hstream hle
  have hpositive := (needReceive_iff hwf).mp hneed
  have hasked : b.bytesLeft.toNat = lengthHeader.missing b.taken := by
    rw [bytesLeft_eq hwf]
    rfl
  have htotal := congrArg List.length hstream
  simp only [List.length_append] at htotal
  have hchunk : (b.chunk count wire).length = min count (lengthHeader.missing b.taken) := by
    rw [chunk, List.length_take, hasked]
    omega
  have hsplit : b.chunk count wire ++ wire.drop (b.chunk count wire).length = wire := by
    rw [hchunk]
    unfold chunk
    rw [hasked, List.take_append_drop]
  have hne : b.chunk count wire ≠ [] := by
    rw [← List.length_pos_iff]
    omega
  have hfit : b.admits (.ok (b.chunk count wire)) = true := by
    simp only [admits, decide_eq_true_eq, bytesLeft_eq hwf, hchunk]
    omega
  obtain ⟨b', hok, ⟨hwf', htaken', -⟩, hle'⟩ :=
    receive_chunk hwf hmax (by rw [hsplit]; exact hstream) hle hne hfit
  refine ⟨b', hok, hwf', ?_, ?_, hle'⟩
  · rw [htaken', List.append_assoc, hsplit]
    exact hstream
  · rw [htaken', List.length_append]
    have hpos := List.length_pos_iff.mpr hne
    omega

/-- Positive counts, as many as bytes are missing, complete the message and stop there. -/
theorem receiveLoop_spec {payload rest : Bytes}
    (hmax : payload.length ≤ MAX_INCOMING_FILE_SIZE) :
    ∀ (counts : List Nat) (b : IncomingBuffer) (wire : Bytes), b.WF →
      b.taken ++ wire = frame payload ++ rest →
      b.taken.length ≤ (frame payload).length → (∀ c ∈ counts, 0 < c) →
      (frame payload).length ≤ b.taken.length + counts.length →
      ∃ b' left, receiveLoop counts b wire = some (b', rest, left) ∧ b'.WF ∧
        b'.getMessage = payload ∧ (∀ c ∈ left, 0 < c) ∧
        b.taken.length + counts.length ≤ (frame payload).length + left.length := by
  have hbound : payload.length < lengthHeader.bound := by
    simp only [MAX_INCOMING_FILE_SIZE] at hmax
    simp only [lengthHeader_bound]
    omega
  intro counts
  induction counts with
  | nil =>
      intro b wire hwf hstream hle _ hlen
      have hneed : b.needReceive = false := by
        have hmiss : b.taken.length + lengthHeader.missing b.taken ≤ (frame payload).length :=
          Header.missing_le hbound hstream hle
        have hfull : lengthHeader.missing b.taken = 0 := by
          rw [List.length_nil] at hlen
          omega
        rw [← Bool.not_eq_true, needReceive_iff hwf]
        exact fun hc => hc hfull
      obtain ⟨-, hwire, hmsg⟩ := getMessage_of_frame hwf hmax hstream hle hneed
      exact ⟨b, [], by simp [receiveLoop, hneed, hwire], hwf, hmsg, by simp, by simpa using hle⟩
  | cons count counts ih =>
      intro b wire hwf hstream hle hpos hlen
      cases hneed : b.needReceive with
      | false =>
          obtain ⟨htaken, hwire, hmsg⟩ := getMessage_of_frame hwf hmax hstream hle hneed
          exact ⟨b, count :: counts, by simp [receiveLoop, hneed, hwire], hwf, hmsg, hpos,
            by simp [htaken]⟩
      | true =>
          obtain ⟨b', hok, hwf', hstream', hlonger, hle'⟩ :=
            receive_count hmax hwf hstream hle hneed (hpos count (by simp))
          rw [List.length_cons] at hlen
          obtain ⟨b'', left, hloop, hwf'', hmsg, hpos', hcounts⟩ :=
            ih b' (wire.drop (b.chunk count wire).length) hwf' hstream' hle'
              (fun c hc => hpos c (by simp [hc])) (by omega)
          refine ⟨b'', left, ?_, hwf'', hmsg, hpos', by rw [List.length_cons]; omega⟩
          simp only [receiveLoop, hneed, if_true, hok]
          exact hloop

/-- Each payload with the frames that come after it. -/
def deliveries : List Bytes → List (Bytes × Bytes)
  | [] => []
  | data :: rest => (data, rest.flatMap frame) :: deliveries rest

theorem deliveries_fst (payloads : List Bytes) :
    (deliveries payloads).map Prod.fst = payloads := by
  induction payloads with
  | nil => rfl
  | cons data rest ih => rw [deliveries, List.map_cons, ih]

theorem receiveAll_spec :
    ∀ (payloads : List Bytes) (counts : List Nat) (b : IncomingBuffer), b.WF →
      b.taken = [] → (∀ data ∈ payloads, data.length ≤ MAX_INCOMING_FILE_SIZE) →
      (∀ c ∈ counts, 0 < c) → (payloads.flatMap frame).length ≤ counts.length →
      ∃ left, receiveAll payloads.length counts b (payloads.flatMap frame)
        = some (deliveries payloads, left) := by
  intro payloads
  induction payloads with
  | nil => intro counts b _ _ _ _ _; exact ⟨counts, rfl⟩
  | cons data rest ih =>
      intro counts b hwf htaken hmax hpos hlen
      simp only [List.flatMap_cons, List.length_append] at hlen
      obtain ⟨b', left, hloop, hwf', hmsg, hpos', hcounts⟩ :=
        receiveLoop_spec (hmax data (by simp)) counts b (frame data ++ rest.flatMap frame) hwf
          (show b.taken ++ _ = frame data ++ rest.flatMap frame by rw [htaken]; rfl)
          (by simp [htaken]) hpos (by omega)
      obtain ⟨left', hall⟩ := ih left b'.reset hwf'.reset (taken_reset b')
        (fun d hd => hmax d (by simp [hd])) hpos' (by omega)
      refine ⟨left', ?_⟩
      simp only [List.length_cons, List.flatMap_cons, receiveAll, hloop, hall, hmsg, deliveries]

end IncomingBuffer

/--
**Any list of messages survives any chunking.**  Whatever positive counts `::send`
and `recv` return, the sender puts the frames on the wire, one after the other and
nothing else, and the receiver takes the same payloads off it, each of them before
it touches a byte of the next.
-/
theorem messages_survive_chunking (payloads : List Bytes)
    (hmax : ∀ data ∈ payloads, data.length ≤ MAX_INCOMING_FILE_SIZE) (fd fd' : Int)
    (sends recvs : List Nat) (hsends : ∀ c ∈ sends, 0 < c) (hrecvs : ∀ c ∈ recvs, 0 < c)
    (hsendsLen : (payloads.flatMap frame).length ≤ sends.length)
    (hrecvsLen : (payloads.flatMap frame).length ≤ recvs.length) :
    ∃ wire sendsLeft recvsLeft,
      OutgoingBuffer.sendAll payloads sends (.make fd) = some (wire, sendsLeft) ∧
      wire = payloads.flatMap frame ∧
      IncomingBuffer.receiveAll payloads.length recvs (.make fd') wire
        = some (IncomingBuffer.deliveries payloads, recvsLeft) ∧
      (IncomingBuffer.deliveries payloads).map Prod.fst = payloads := by
  obtain ⟨sendsLeft, hsend⟩ :=
    OutgoingBuffer.sendAll_spec payloads sends (.make fd) hmax hsends hsendsLen
  obtain ⟨recvsLeft, hrecv⟩ :=
    IncomingBuffer.receiveAll_spec payloads recvs (.make fd') (IncomingBuffer.wf_make fd')
      (IncomingBuffer.taken_make fd') hmax hrecvs hrecvsLen
  exact ⟨_, sendsLeft, recvsLeft, hsend, rfl, hrecv, IncomingBuffer.deliveries_fst payloads⟩

/-- Two messages, the second of them empty, a byte or three at a time. -/
theorem messages_survive_chunking_of_two :
    ∃ wire sendsLeft recvsLeft,
      OutgoingBuffer.sendAll [[7, 8, 9], []] (List.replicate 11 3) (.make 4)
        = some (wire, sendsLeft) ∧
      wire = [[7, 8, 9], []].flatMap frame ∧
      IncomingBuffer.receiveAll 2 (List.replicate 11 1) (.make 5) wire
        = some (IncomingBuffer.deliveries [[7, 8, 9], []], recvsLeft) ∧
      (IncomingBuffer.deliveries [[7, 8, 9], []]).map Prod.fst = [[7, 8, 9], []] :=
  messages_survive_chunking [[7, 8, 9], []] (by decide) 4 5 (List.replicate 11 3)
    (List.replicate 11 1) (by decide) (by decide) (by decide) (by decide)

end Distray
