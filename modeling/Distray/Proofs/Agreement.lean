/-
The two halves of the message code, side by side.

The worker sends and receives with blocking calls, the controller through its buffers,
and both are to write and read the same frames.  They write the same bytes.  They read
the same messages until there is one of no bytes: the blocking code asks `recv` for
nothing, gets nothing, and takes that for the end of the connection, where the buffer
never asks.

A message of no bytes is not far-fetched.  Every field of the protocol is optional, and a
request in which none is set is encoded as nothing at all.
-/
import Distray.Proofs.Stream
import Distray.DrpCodec

namespace Distray

variable {M : Type}

/-! ### Reading with blocking calls

The blocking reader sees the stream as a whole, because its calls wait for all they ask
for.  So its messages are the frames taken off the front, one after another, until it takes
one of them for the end of the connection.
-/

/-- Why reading stops before the last message. -/
inductive Ended
  | blocked
  | closed
  | undecodable
deriving DecidableEq, Repr

/--
Call `receive_message` so many times, `recv` returning all it was asked for.  With each
message comes what was left of the stream at that time.
-/
def receiveMessages (parse : Bytes → Option M) : Nat → Bytes → Except Ended (List (M × Bytes))
  | 0, _ => .ok []
  | n + 1, stream =>
      match receiveMessage stream with
      | none => .error .blocked
      | some (.closed, _) => .error .closed
      | some (.message data, rest) =>
          match parse data with
          | none => .error .undecodable
          | some m => (receiveMessages parse n rest).map ((m, rest) :: ·)

/-- `get_message` for each of the payloads the buffer has held. -/
def getMessages (parse : Bytes → Option M) : List (Bytes × Bytes) → Option (List (M × Bytes))
  | [] => some []
  | (data, rest) :: more =>
      match parse data with
      | none => none
      | some m => (getMessages parse more).map ((m, rest) :: ·)

variable {serialize : M → Bytes} {parse : Bytes → Option M}

/-- Each message, with the frames of those that come after it. -/
def readings (serialize : M → Bytes) : List M → List (M × Bytes)
  | [] => []
  | m :: rest => (m, (rest.map serialize).flatMap frame) :: readings serialize rest

theorem readings_fst (messages : List M) :
    (readings serialize messages).map Prod.fst = messages := by
  induction messages with
  | nil => rfl
  | cons m rest ih => rw [readings, List.map_cons, ih]

theorem getMessages_deliveries (hround : ∀ m, parse (serialize m) = some m) (messages : List M) :
    getMessages parse (IncomingBuffer.deliveries (messages.map serialize))
      = some (readings serialize messages) := by
  induction messages with
  | nil => rfl
  | cons m rest ih =>
      simp only [List.map_cons, IncomingBuffer.deliveries, getMessages, hround, ih, Option.map_some,
        readings]

/-- A message on the wire is read, or taken for the end if it is empty. -/
theorem receiveMessage_frame {data : Bytes} (h : data.length ≤ MAX_INCOMING_FILE_SIZE)
    (rest : Bytes) :
    receiveMessage (frame data ++ rest)
      = some (if data = [] then .closed else .message data, rest) := by
  have hbound : data.length < lengthHeader.bound := by
    simp only [MAX_INCOMING_FILE_SIZE] at h
    simp only [lengthHeader_bound]
    omega
  unfold receiveMessage
  rw [Header.takeFrame_frame hbound]
  by_cases hnil : data = []
  · simp [hnil]
  · simp [hnil]

theorem receiveMessages_eq (hround : ∀ m, parse (serialize m) = some m) :
    ∀ messages : List M, (∀ m ∈ messages, (serialize m).length ≤ MAX_INCOMING_FILE_SIZE) →
      receiveMessages parse messages.length ((messages.map serialize).flatMap frame)
        = if ∀ m ∈ messages, serialize m ≠ [] then .ok (readings serialize messages)
          else .error .closed := by
  intro messages
  induction messages with
  | nil => intro _; simp [receiveMessages, readings]
  | cons m rest ih =>
      intro hmax
      have hrest := ih fun m' hm' => hmax m' (List.mem_cons_of_mem _ hm')
      rw [List.map_cons, List.flatMap_cons, List.length_cons, receiveMessages,
        receiveMessage_frame (hmax m (by simp))]
      by_cases hnil : serialize m = []
      · rw [if_pos hnil, if_neg (fun hall => hall m (by simp) hnil)]
      · rw [if_neg hnil]
        simp only [hround, hrest]
        by_cases hall : ∀ m' ∈ rest, serialize m' ≠ []
        · rw [if_pos hall, if_pos (by simpa [hnil] using hall)]
          rfl
        · rw [if_neg hall, if_neg (fun h => hall fun m' hm' => h m' (List.mem_cons_of_mem _ hm'))]
          rfl

/-! ### The comparison -/

/--
Both senders put the same bytes on the wire, and from there both receivers read the
messages that were sent, each of them leaving the same bytes.
-/
def Agree (serialize : M → Bytes) (parse : Bytes → Option M) (messages : List M) (fd fd' : Int)
    (sends recvs : List Nat) : Prop :=
  ∃ wire sendsLeft payloads recvsLeft received,
    OutgoingBuffer.sendAll (messages.map serialize) sends (.make fd) = some (wire, sendsLeft) ∧
    messages.flatMap (fun m => sendMessage (serialize m)) = wire ∧
    IncomingBuffer.receiveAll messages.length recvs (.make fd') wire
      = some (payloads, recvsLeft) ∧
    getMessages parse payloads = some received ∧
    receiveMessages parse messages.length wire = .ok received ∧
    received.map Prod.fst = messages

/-- What `send_message` sends for each message. -/
theorem flatMap_sendMessage {messages : List M}
    (hmax : ∀ m ∈ messages, (serialize m).length ≤ MAX_INCOMING_FILE_SIZE) :
    messages.flatMap (fun m => sendMessage (serialize m))
      = (messages.map serialize).flatMap frame := by
  induction messages with
  | nil => rfl
  | cons m rest ih =>
      have hm := hmax m (by simp)
      simp only [MAX_INCOMING_FILE_SIZE] at hm
      rw [List.flatMap_cons, List.map_cons, List.flatMap_cons, sendMessage_eq (by omega),
        ih fun m' hm' => hmax m' (List.mem_cons_of_mem _ hm')]

/--
**When the blocking and the buffered code agree.**  Whatever positive counts `::send`
and `recv` return, the two senders put the same bytes on the wire; and the two receivers
read the same messages off it, without one of them reporting that the connection was
closed, if and only if no message serializes to nothing.
-/
theorem agree_iff {M : Type} (serialize : M → Bytes) (parse : Bytes → Option M)
    (hround : ∀ m, parse (serialize m) = some m) (messages : List M)
    (hmax : ∀ m ∈ messages, (serialize m).length ≤ MAX_INCOMING_FILE_SIZE) (fd fd' : Int)
    (sends recvs : List Nat) (hsends : ∀ c ∈ sends, 0 < c) (hrecvs : ∀ c ∈ recvs, 0 < c)
    (hsendsLen : ((messages.map serialize).flatMap frame).length ≤ sends.length)
    (hrecvsLen : ((messages.map serialize).flatMap frame).length ≤ recvs.length) :
    Agree serialize parse messages fd fd' sends recvs ↔ ∀ m ∈ messages, serialize m ≠ [] := by
  have hpayloads : ∀ data ∈ messages.map serialize, data.length ≤ MAX_INCOMING_FILE_SIZE := by
    intro data hdata
    obtain ⟨m, hm, rfl⟩ := List.mem_map.mp hdata
    exact hmax m hm
  obtain ⟨sendsLeft, hsend⟩ :=
    OutgoingBuffer.sendAll_spec _ sends (.make fd) hpayloads hsends hsendsLen
  obtain ⟨recvsLeft, hrecv⟩ :=
    IncomingBuffer.receiveAll_spec _ recvs (.make fd') (IncomingBuffer.wf_make fd')
      (IncomingBuffer.taken_make fd') hpayloads hrecvs hrecvsLen
  rw [List.length_map] at hrecv
  have hread := receiveMessages_eq hround messages hmax
  constructor
  · rintro ⟨wire, left, payloads, left', received, hwire, -, -, -, hreceived, -⟩
    by_contra hnot
    rw [hsend, Option.some.injEq, Prod.mk.injEq] at hwire
    rw [← hwire.1, hread, if_neg hnot] at hreceived
    exact absurd hreceived (by simp)
  · intro hall
    rw [if_pos hall] at hread
    exact ⟨_, sendsLeft, _, recvsLeft, readings serialize messages, hsend,
      flatMap_sendMessage hmax, hrecv, getMessages_deliveries hround messages, hread,
      readings_fst messages⟩

/-- Two responses that say no more than their type. -/
theorem agree_welcomed :
    Agree drpCodec.serializeResponse drpCodec.parseResponse
      [{ requestType? := some .welcome }, { requestType? := some .copyIn }] 4 5
      (List.replicate 12 3) (List.replicate 12 1) :=
  (agree_iff drpCodec.serializeResponse drpCodec.parseResponse drpCodec_sound.response
    [{ requestType? := some .welcome }, { requestType? := some .copyIn }] (by decide) 4 5
    (List.replicate 12 3) (List.replicate 12 1) (by decide) (by decide) (by decide)
    (by decide)).mpr (by decide)

/-- A request without any field is read by one half and ends the connection for the other. -/
theorem not_agree_on_empty :
    ¬ ∀ (M : Type) (serialize : M → Bytes) (parse : Bytes → Option M),
      (∀ m, parse (serialize m) = some m) → ∀ messages : List M,
      (∀ m ∈ messages, (serialize m).length ≤ MAX_INCOMING_FILE_SIZE) → ∀ (fd fd' : Int)
      (sends recvs : List Nat), (∀ c ∈ sends, 0 < c) → (∀ c ∈ recvs, 0 < c) →
      ((messages.map serialize).flatMap frame).length ≤ sends.length →
      ((messages.map serialize).flatMap frame).length ≤ recvs.length →
      Agree serialize parse messages fd fd' sends recvs := by
  intro h
  obtain ⟨wire, left, payloads, left', received, hwire, -, -, -, hreceived, -⟩ :=
    h Request drpCodec.serializeRequest drpCodec.parseRequest drpCodec_sound.request [{}]
      (by decide) 4 5 [4, 4, 4, 4] [4, 4, 4, 4] (by decide) (by decide) (by decide) (by decide)
  have hsend : OutgoingBuffer.sendAll ([{}].map drpCodec.serializeRequest) [4, 4, 4, 4] (.make 4)
      = some ([0, 0, 0, 0], [4, 4, 4]) := by decide
  rw [hsend, Option.some.injEq, Prod.mk.injEq] at hwire
  rw [← hwire.1] at hreceived
  have hclosed : receiveMessages drpCodec.parseRequest 1 [0, 0, 0, 0] = .error .closed := rfl
  exact absurd (hclosed.symm.trans hreceived) (by simp)

end Distray
