/-
What the worker does when its connection is cut.

The requests that arrived in full are handled, in order, each once, and nothing is done
on account of a request that did not.  How the program ends tells where the cut was,
though not quite: between two requests it is taken for the end of the work, as it should
be, but so it is right after the length of a request.

The other model of the worker, in `Link`, knows less about how a connection ends and more
about when bytes arrive.  Where a message is there, the two take the same one off the
stream, which is shown at the end.
-/
import Distray.Serving
import Distray.Proofs.Lockstep

namespace Distray

open Octets

namespace Worker

variable {codec : Codec}

/-! ### One request

With `MSG_WAITALL` a call of `recv` gets less than it asks for only where the stream ends, so
each of the two calls has three outcomes: all, less, and nothing.  They are the ways out of
`receive_message`, and the source looks at nothing besides.
-/

/-- A call of `recv` gets what it asks for, if that is there. -/
theorem recv_append {data rest : Bytes} {error : Option Errno} (hsome : data ++ rest ≠ [])
    (hle : data.length ≤ MAX_RW_COUNT) :
    recv data.length ⟨data ++ rest, error⟩ = (.ok data, ⟨rest, error⟩) := by
  rw [recv, if_neg hsome]
  simp only [Nat.min_eq_left hle, List.take_left, List.drop_left]

theorem recv_short {data : Bytes} {error : Option Errno} {n : Nat} (hsome : data ≠ [])
    (hlt : data.length ≤ min n MAX_RW_COUNT) :
    recv n ⟨data, error⟩ = (.ok data, ⟨[], error⟩) := by
  rw [recv, if_neg hsome]
  simp only [List.take_of_length_le hlt, List.drop_eq_nil_of_le hlt]

/-- The way out when there is nothing more. -/
def closedBy (error : Option Errno) : Receipt := .failed (error.getD .ECONNRESET)

/-- The length in front of a message is read as its size. -/
theorem ntohl_header (data : Bytes) (hfit : data.length < 2 ^ 32) :
    ntohl (ofLittle (big 4 data.length)) = data.length := by
  rw [ntohl_ofLittle (length_big 4 _)]
  exact lengthHeader.decode_encode data.length hfit

/-- **A request that is there in full is received.** -/
theorem receiveRequest_frame {data rest : Bytes} {error : Option Errno} {request : Request}
    (hparse : codec.parseRequest data = some request) (hsome : data ≠ [])
    (hle : data.length ≤ MAX_RW_COUNT) :
    receiveRequest codec ⟨frame data ++ rest, error⟩ = (.message request, ⟨rest, error⟩) := by
  have hfit : data.length < 2 ^ 32 := by
    simp only [MAX_RW_COUNT] at hle
    omega
  have hwidth : (big 4 data.length).length = 4 := length_big 4 _
  have hheader : recv 4 ⟨frame data ++ rest, error⟩
      = (.ok (big 4 data.length), ⟨data ++ rest, error⟩) := by
    rw [frame_eq, List.append_assoc, ← hwidth]
    refine recv_append ?_ (by rw [hwidth]; decide)
    simp [hsome]
  have hlen : data.length ≠ 0 := by simpa using hsome
  have hbody : recv data.length ⟨data ++ rest, error⟩ = (.ok data, ⟨rest, error⟩) :=
    recv_append (by simp [hsome]) hle
  simp only [receiveRequest, hheader, hwidth, ntohl_header data hfit, hbody, hlen, hparse]
  simp

/-- When there is nothing more, a call of `recv` is where `receive_message` ends. -/
theorem recv_nil (n : Nat) (error : Option Errno) :
    recv n ⟨[], error⟩ = (match error with | some e => .error e | none => .ok [], ⟨[], error⟩) := by
  cases error <;> rfl

/-- A part of a message in its frame is part of the length, or the length and part of the
message. -/
theorem cut_cases {data part : Bytes} (hpart : part <+: frame data) (hne : part ≠ frame data) :
    part.length < 4 ∨
      ∃ got : Bytes, part = big 4 data.length ++ got ∧ got.length < data.length := by
  obtain ⟨rest, hrest⟩ := hpart
  have hwidth : (big 4 data.length).length = 4 := length_big 4 _
  rw [frame_eq] at hrest hne
  have hlen := congrArg List.length hrest
  simp only [List.length_append, hwidth] at hlen
  rcases List.append_eq_append_iff.mp hrest with ⟨more, hheader, hdata⟩ | ⟨got, hpart, hdata⟩
  · by_cases hmore : more = []
    · have hall : part = big 4 data.length ++ [] := by simp [hheader, hmore]
      refine Or.inr ⟨[], hall, ?_⟩
      rcases data with _ | ⟨b, data⟩
      · exact absurd hall hne
      · simp
    · left
      have hmore := List.length_pos_of_ne_nil hmore
      have hsum := congrArg List.length hheader
      simp only [List.length_append, hwidth] at hsum
      omega
  · refine Or.inr ⟨got, hpart, ?_⟩
    by_cases hrest' : rest = []
    · exact absurd (by simpa [hrest'] using hrest) hne
    · have hpos := List.length_pos_of_ne_nil hrest'
      have hsum := congrArg List.length hdata
      simp only [List.length_append] at hsum
      omega

/-- **What comes of a request that is cut short.** -/
theorem receiveRequest_cut {data part : Bytes} {error : Option Errno}
    (hle : data.length ≤ MAX_RW_COUNT) (hpart : part <+: frame data) (hne : part ≠ frame data) :
    (receiveRequest codec ⟨part, error⟩).1 =
      if part.length = 0 ∨ part.length = 4 then closedBy error
      else if part.length < 4 then .exited (.shortLength part.length)
      else .exited (.shortMessage (part.length - 4) data.length) := by
  have hfit : data.length < 2 ^ 32 := by
    simp only [MAX_RW_COUNT] at hle
    omega
  have hwidth : (big 4 data.length).length = 4 := length_big 4 _
  rcases cut_cases hpart hne with hshort | ⟨got, rfl, hgot⟩
  · by_cases hnil : part = []
    · subst hnil
      rw [receiveRequest, recv_nil]
      cases error <;> simp [closedBy]
    · have hpos := List.length_pos_of_ne_nil hnil
      have hrecv : recv 4 ⟨part, error⟩ = (.ok part, ⟨[], error⟩) :=
        recv_short hnil (by simp only [MAX_RW_COUNT]; omega)
      have h4 : part.length ≠ 4 := by omega
      have h0 : part.length ≠ 0 := by omega
      simp only [receiveRequest, hrecv, h0, hshort]
      simp [h4]
  · have hheader : recv 4 ⟨big 4 data.length ++ got, error⟩
        = (.ok (big 4 data.length), ⟨got, error⟩) := by
      rw [← hwidth]
      refine recv_append ?_ (by rw [hwidth]; decide)
      intro h
      simp [List.append_eq_nil_iff.mp h] at hwidth
    have hlen : (big 4 data.length ++ got).length = 4 + got.length := by
      rw [List.length_append, hwidth]
    rw [hlen]
    by_cases hnil : got = []
    · subst hnil
      simp only [receiveRequest, hheader, hwidth, recv_nil]
      cases error <;> simp [closedBy]
    · have hpos := List.length_pos_of_ne_nil hnil
      have hrecv : recv data.length ⟨got, error⟩ = (.ok got, ⟨[], error⟩) :=
        recv_short hnil (by omega)
      have h0 : got.length ≠ 0 := by omega
      have h1 : got.length ≠ data.length := by omega
      simp only [receiveRequest, hheader, hwidth, ntohl_header data hfit, hrecv, h0]
      simp [hnil, h1]

/-! ### All of them

The whole loop is an induction over the requests that have arrived.  As long as they last
each turn takes one off the front and answers it; the turn after that finds what is left of
a request and ends the program, one way or another.
-/

/-- The way out of the program when `receive_message` has ended so. -/
def Receipt.ending : Receipt → Option Ended
  | .message _ => none
  | .failed .ECONNRESET => some (.returned 0)
  | .failed _ => some (.returned (-1))
  | .exited why => some (.exited why)

/-- The answers to requests, the first of which has number `k`, as they are sent. -/
def replies (codec : Codec) (env : Nat → WorkerEnv) : Nat → List Request → Bytes
  | _, [] => []
  | k, request :: rest =>
      sendMessage (codec.serializeResponse (handle (env k) request)) ++
        replies codec env (k + 1) rest

variable {env : Nat → WorkerEnv} {sends : Nat → Option Errno}

/-- The loop goes on after a request whose response is sent. -/
theorem serve_message {fuel k : Nat} {s s' : Incoming} {request : Request}
    (h : receiveRequest codec s = (.message request, s')) (hsent : sends k = none) :
    serve codec env sends (fuel + 1) k s =
      { serve codec env sends fuel (k + 1) s' with
        requests := request :: (serve codec env sends fuel (k + 1) s').requests
        sent := sendMessage (codec.serializeResponse (handle (env k) request)) ++
          (serve codec env sends fuel (k + 1) s').sent } := by
  rw [serve]
  simp only [h, hsent]

theorem serve_unsent {fuel k : Nat} {s s' : Incoming} {request : Request}
    (h : receiveRequest codec s = (.message request, s')) (hsent : sends k ≠ none) :
    serve codec env sends (fuel + 1) k s = ⟨[request], [], some (.returned (-1))⟩ := by
  obtain ⟨e, he⟩ := Option.ne_none_iff_exists'.mp hsent
  rw [serve]
  simp only [h, he]

theorem serve_ending {fuel k : Nat} {s : Incoming} {ended : Ended}
    (h : (receiveRequest codec s).1.ending = some ended) :
    serve codec env sends (fuel + 1) k s = ⟨[], [], some ended⟩ := by
  rw [serve]
  rcases hreceipt : receiveRequest codec s with ⟨receipt, s'⟩
  rw [hreceipt] at h
  cases receipt with
  | message request => simp [Receipt.ending] at h
  | failed e =>
      cases e with
      | ECONNRESET => simpa [Receipt.ending] using h
      | other code => simpa [Receipt.ending] using h
  | exited why => simpa [Receipt.ending] using h

/-- A request as it arrives: some bytes, not too many, that are parsed. -/
structure Arrival (codec : Codec) where
  data : Bytes
  request : Request
  parsed : codec.parseRequest data = some request
  nonempty : data ≠ []
  fits : data.length ≤ MAX_RW_COUNT

/-- Requests one after the other. -/
def arriving (whole : List (Arrival codec)) : Bytes := (whole.map fun x => frame x.data).flatten

@[simp] theorem arriving_nil : arriving ([] : List (Arrival codec)) = [] := rfl

@[simp] theorem arriving_cons (x : Arrival codec) (whole : List (Arrival codec)) :
    arriving (x :: whole) = frame x.data ++ arriving whole := rfl

/-- The first of them is received. -/
theorem receiveRequest_arriving (x : Arrival codec) (whole : List (Arrival codec))
    (part : Bytes) (error : Option Errno) :
    receiveRequest codec ⟨arriving (x :: whole) ++ part, error⟩
      = (.message x.request, ⟨arriving whole ++ part, error⟩) := by
  rw [arriving_cons, List.append_assoc]
  exact receiveRequest_frame x.parsed x.nonempty x.fits

/-- How the program ends when `part` is there of a request of that size. -/
def cutEnding (part : Bytes) (size : Nat) (error : Option Errno) : Ended :=
  if part.length = 0 ∨ part.length = 4 then
    .returned (if error = none ∨ error = some .ECONNRESET then 0 else -1)
  else if part.length < 4 then .exited (.shortLength part.length)
  else .exited (.shortMessage (part.length - 4) size)

theorem ending_closedBy (error : Option Errno) :
    (closedBy error).ending =
      some (.returned (if error = none ∨ error = some .ECONNRESET then 0 else -1)) := by
  cases error with
  | none => rfl
  | some e => cases e <;> simp [closedBy, Receipt.ending]

theorem ending_cut {data part : Bytes} {error : Option Errno}
    (hle : data.length ≤ MAX_RW_COUNT) (hpart : part <+: frame data) (hne : part ≠ frame data) :
    (receiveRequest codec ⟨part, error⟩).1.ending = some (cutEnding part data.length error) := by
  rw [receiveRequest_cut hle hpart hne, cutEnding]
  by_cases hend : part.length = 0 ∨ part.length = 4
  · rw [if_pos hend, if_pos hend, ending_closedBy]
  · rw [if_neg hend, if_neg hend]
    by_cases hshort : part.length < 4
    · rw [if_pos hshort, if_pos hshort]
      rfl
    · rw [if_neg hshort, if_neg hshort]
      rfl

/-- As long as responses can be sent, the loop reaches what is cut. -/
theorem serve_arriving {data part : Bytes} {error : Option Errno}
    (hle : data.length ≤ MAX_RW_COUNT) (hpart : part <+: frame data) (hne : part ≠ frame data) :
    ∀ (whole : List (Arrival codec)) (fuel k : Nat), whole.length < fuel →
      (∀ i < whole.length, sends (k + i) = none) →
      serve codec env sends fuel k ⟨arriving whole ++ part, error⟩ =
        ⟨whole.map Arrival.request, replies codec env k (whole.map Arrival.request),
          some (cutEnding part data.length error)⟩ := by
  intro whole
  induction whole with
  | nil =>
      intro fuel k hfuel _
      obtain ⟨fuel, rfl⟩ := Nat.exists_eq_add_one_of_ne_zero (Nat.ne_of_gt hfuel)
      exact serve_ending (ending_cut hle hpart hne)
  | cons x whole ih =>
      intro fuel k hfuel hsent
      obtain ⟨fuel, rfl⟩ := Nat.exists_eq_add_one_of_ne_zero (Nat.ne_zero_of_lt hfuel)
      rw [List.length_cons] at hfuel hsent
      have hfirst : sends k = none := hsent 0 (by omega)
      rw [serve_message (receiveRequest_arriving x whole part error) hfirst,
        ih fuel (k + 1) (by omega) ?_]
      · rfl
      · intro i hi
        have hsend := hsent (i + 1) (by omega)
        rwa [Nat.add_comm i 1, ← Nat.add_assoc] at hsend

/-- When one cannot be sent, the loop ends there. -/
theorem serve_until {part : Bytes} {error : Option Errno} :
    ∀ (i : Nat) (whole : List (Arrival codec)) (fuel k : Nat), whole.length < fuel →
      i < whole.length → (∀ j < i, sends (k + j) = none) → sends (k + i) ≠ none →
      serve codec env sends fuel k ⟨arriving whole ++ part, error⟩ =
        ⟨(whole.take (i + 1)).map Arrival.request,
          replies codec env k ((whole.take i).map Arrival.request), some (.returned (-1))⟩ := by
  intro i
  induction i with
  | zero =>
      intro whole fuel k hfuel hi _ hunsent
      obtain ⟨fuel, rfl⟩ := Nat.exists_eq_add_one_of_ne_zero (Nat.ne_zero_of_lt hfuel)
      obtain ⟨x, whole, rfl⟩ := List.exists_cons_of_length_pos hi
      exact serve_unsent (receiveRequest_arriving x whole part error) hunsent
  | succ i ih =>
      intro whole fuel k hfuel hi hsent hunsent
      obtain ⟨fuel, rfl⟩ := Nat.exists_eq_add_one_of_ne_zero (Nat.ne_zero_of_lt hfuel)
      obtain ⟨x, whole, rfl⟩ := List.exists_cons_of_length_pos (Nat.zero_lt_of_lt hi)
      rw [List.length_cons] at hfuel hi
      have hunsent' : sends (k + 1 + i) ≠ none := by
        rwa [Nat.add_assoc, Nat.add_comm 1 i]
      have hfirst : sends k = none := hsent 0 (by omega)
      rw [serve_message (receiveRequest_arriving x whole part error) hfirst,
        ih whole fuel (k + 1) (by omega) (by omega) ?_ hunsent']
      · rfl
      · intro j hj
        have hsend := hsent (j + 1) (by omega)
        rwa [Nat.add_comm j 1, ← Nat.add_assoc] at hsend

/--
**The worker serves what arrives in full, and that alone.**

The requests are handled in order, each once, and answered in order, until a response
cannot be sent; otherwise the program ends where the connection does.
-/
theorem serves_what_arrives (codec : Codec) (env : Nat → WorkerEnv)
    (sends : Nat → Option Errno) (whole : List (Arrival codec)) (data part : Bytes)
    (error : Option Errno) (fuel : Nat) (hle : data.length ≤ MAX_RW_COUNT)
    (hpart : part <+: frame data) (hne : part ≠ frame data) (hfuel : whole.length < fuel) :
    ((∀ i < whole.length, sends i = none) →
      serve codec env sends fuel 0 ⟨arriving whole ++ part, error⟩ =
        ⟨whole.map Arrival.request, replies codec env 0 (whole.map Arrival.request),
          some (cutEnding part data.length error)⟩) ∧
    ∀ i < whole.length, (∀ j < i, sends j = none) → sends i ≠ none →
      serve codec env sends fuel 0 ⟨arriving whole ++ part, error⟩ =
        ⟨(whole.take (i + 1)).map Arrival.request,
          replies codec env 0 ((whole.take i).map Arrival.request), some (.returned (-1))⟩ := by
  constructor
  · intro hsent
    exact serve_arriving hle hpart hne whole fuel 0 hfuel (by simpa using hsent)
  · intro i hi hsent hunsent
    exact serve_until i whole fuel 0 hfuel hi (by simpa using hsent) (by simpa using hunsent)

/-- The request with nothing in it but its type, as the controller sends it. -/
def welcomeArrival : Arrival drpCodec where
  data := drpCodec.serializeRequest RemoteWorker.welcomeRequest
  request := RemoteWorker.welcomeRequest
  parsed := drpCodec_sound.request _
  nonempty := by decide
  fits := by decide

/-- A connection closed between the length of a second request and the request itself. -/
theorem serves_what_arrives_welcome :
    serve drpCodec (fun _ => Pair.bareEnv) (fun _ => none) 2 0
        ⟨arriving [welcomeArrival] ++ [0, 0, 0, 2], none⟩ =
      ⟨[RemoteWorker.welcomeRequest],
        replies drpCodec (fun _ => Pair.bareEnv) 0 [RemoteWorker.welcomeRequest],
        some (.returned 0)⟩ :=
  (serves_what_arrives drpCodec (fun _ => Pair.bareEnv) (fun _ => none) [welcomeArrival]
    welcomeArrival.data [0, 0, 0, 2] none 2 (by decide) (by decide) (by decide) (by decide)).1
    (fun _ _ => rfl)

/-! ### The other model -/

/-- A frame that is taken off a stream starts it. -/
theorem takeFrame_header {stream data rest : Bytes}
    (h : lengthHeader.takeFrame stream = some (data, rest)) :
    ∃ header : Bytes, stream = header ++ (data ++ rest) ∧ header.length = 4 ∧
      ntohl (ofLittle header) = data.length := by
  unfold Header.takeFrame at h
  by_cases hheader : stream.length < lengthHeader.width
  · rw [if_pos hheader] at h
    exact absurd h (by simp)
  · rw [if_neg hheader] at h
    by_cases hsize : stream.length <
        lengthHeader.width + lengthHeader.decode (stream.take lengthHeader.width)
    · simp only [if_pos hsize] at h
      exact absurd h (by simp)
    · simp only [if_neg hsize, Option.some.injEq, Prod.mk.injEq] at h
      obtain ⟨rfl, rfl⟩ := h
      simp only [lengthHeader_width] at hheader hsize ⊢
      have hwidth : (stream.take 4).length = 4 := by
        rw [List.length_take]
        omega
      refine ⟨stream.take 4, ?_, hwidth, ?_⟩
      · rw [← List.drop_drop, List.take_append_drop, List.take_append_drop]
      · rw [ntohl_ofLittle hwidth, List.length_take, List.length_drop]
        show lengthHeader.decode (stream.take 4) = _
        omega

/-- What `Process` takes from the bytes that have arrived, the loop receives. -/
theorem receiveRequest_of_received {stream rest : Bytes} {request : Request}
    {error : Option Errno} (h : Process.received codec stream = some (.handling request, rest))
    (hle : stream.length ≤ MAX_RW_COUNT) :
    receiveRequest codec ⟨stream, error⟩ = (.message request, ⟨rest, error⟩) := by
  obtain ⟨data, htake, hclosed | ⟨_, hfailed⟩ | ⟨request', hparse, hhandling⟩⟩ :=
    Process.received_cases h
  · exact absurd hclosed (by simp)
  · exact absurd hfailed (by simp)
  · obtain rfl : request = request' := by simpa using hhandling
    obtain ⟨header, hstream, hwidth, hsize⟩ := takeFrame_header htake
    have hheader : recv 4 ⟨stream, error⟩ = (.ok header, ⟨data ++ rest, error⟩) := by
      rw [hstream, ← hwidth]
      refine recv_append ?_ (by rw [hwidth]; decide)
      intro h
      simp [List.append_eq_nil_iff.mp h] at hwidth
    have hfits : data.length ≤ MAX_RW_COUNT := by
      have hlen := congrArg List.length hstream
      simp only [List.length_append] at hlen
      omega
    have hsome : data.length ≠ 0 := by
      intro hnil
      simp [Process.received, receiveMessage, htake, hnil] at h
    have hbody : recv data.length ⟨data ++ rest, error⟩ = (.ok data, ⟨rest, error⟩) :=
      recv_append (by simp [List.ne_nil_of_length_pos (Nat.pos_of_ne_zero hsome)]) hfits
    simp only [receiveRequest, hheader, hwidth, hsize, hbody, hsome, hparse]
    simp

end Worker

end Distray
