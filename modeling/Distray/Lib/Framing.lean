/-
Length-prefixed frames on a stream.

A frame is a fixed-width header that encodes the payload's length, followed by the
payload.  Nothing marks where one frame ends and the next begins, so a reader that
has taken `got` off the stream must work out from `got` alone how many symbols it
may still ask for: the rest of the header while it has less than one, and what the
header announces once it has it.  `missing` is that number, and the two facts about
it are the whole theory of reading frames in pieces of any size: while `got` is the
beginning of a frame, `missing` never reaches past that frame's end, and it is zero
exactly at the end.

The alphabet and the header are parameters, so nothing here knows about bytes.
-/
import Mathlib.Data.List.Basic

/-- A way to write lengths below `bound` in a fixed, positive number of symbols. -/
structure Header (α : Type) where
  width : Nat
  bound : Nat
  encode : Nat → List α
  decode : List α → Nat
  width_pos : 0 < width
  length_encode : ∀ n, (encode n).length = width
  decode_encode : ∀ n, n < bound → decode (encode n) = n

namespace Header

variable {α : Type} (H : Header α)

/-- A payload with its header in front. -/
def frame (payload : List α) : List α := H.encode payload.length ++ payload

/-- How many symbols a reader that has taken `got` still asks for. -/
def missing (got : List α) : Nat :=
  if got.length < H.width then H.width - got.length
  else H.width + H.decode (got.take H.width) - got.length

@[simp] theorem length_frame (payload : List α) :
    (H.frame payload).length = H.width + payload.length := by
  simp [frame, H.length_encode]

theorem take_frame (payload : List α) :
    (H.frame payload).take H.width = H.encode payload.length := by
  unfold frame
  rw [← H.length_encode payload.length, List.take_left]

theorem drop_frame (payload : List α) : (H.frame payload).drop H.width = payload := by
  unfold frame
  rw [← H.length_encode payload.length, List.drop_left]

theorem frame_ne_nil (payload : List α) : H.frame payload ≠ [] := by
  intro h
  have hlen := congrArg List.length h
  have hpos := H.width_pos
  rw [H.length_frame, List.length_nil] at hlen
  omega

variable {H}

/-- Two strings that start the same stream agree where both are defined. -/
theorem take_of_append_eq {got wire frame rest : List α} (h : got ++ wire = frame ++ rest)
    (hle : got.length ≤ frame.length) : got = frame.take got.length := by
  have htake := congrArg (List.take got.length) h
  rwa [List.take_left, List.take_append_of_le_length hle] at htake

/-- Inside a frame, what is missing is exactly what is left of the header or of the frame. -/
theorem missing_take {payload : List α} (hfit : payload.length < H.bound) {k : Nat}
    (hk : k ≤ (H.frame payload).length) :
    H.missing ((H.frame payload).take k) =
      if k < H.width then H.width - k else (H.frame payload).length - k := by
  have hlen : ((H.frame payload).take k).length = k := by
    rw [List.length_take, Nat.min_eq_left hk]
  unfold missing
  rw [hlen]
  by_cases hw : k < H.width
  · rw [if_pos hw, if_pos hw]
  · rw [if_neg hw, if_neg hw, List.take_take, Nat.min_eq_left (Nat.not_lt.mp hw),
      H.take_frame, H.decode_encode _ hfit, H.length_frame]

/-- **A reader never asks for a symbol of the next frame.** -/
theorem missing_le {got wire payload rest : List α} (hfit : payload.length < H.bound)
    (h : got ++ wire = H.frame payload ++ rest)
    (hle : got.length ≤ (H.frame payload).length) :
    got.length + H.missing got ≤ (H.frame payload).length := by
  have hgot := take_of_append_eq h hle
  have hmiss := missing_take hfit hle
  rw [← hgot] at hmiss
  have hlen := H.length_frame payload
  rw [hmiss]
  split <;> omega

/-- **A reader asks for nothing more exactly when it holds the whole frame.** -/
theorem missing_eq_zero_iff {got wire payload rest : List α} (hfit : payload.length < H.bound)
    (h : got ++ wire = H.frame payload ++ rest)
    (hle : got.length ≤ (H.frame payload).length) :
    H.missing got = 0 ↔ got = H.frame payload := by
  have hgot := take_of_append_eq h hle
  have hmiss := missing_take hfit hle
  rw [← hgot] at hmiss
  have hlen := H.length_frame payload
  rw [hmiss]
  constructor
  · intro hz
    have hfull : got.length = (H.frame payload).length := by
      split at hz <;> omega
    rw [hgot, hfull, List.take_length]
  · intro heq
    rw [heq, hlen]
    split <;> omega

/-! ### Taking a whole frame at once

A reader that waits until a whole frame is there takes it off the front.  What comes after
it makes no difference, and since the header says where the frame ends, a stream has only
one frame at its front.
-/

variable (H)

/-- The first frame of a stream and what follows it; `none` while it is not all there. -/
def takeFrame (stream : List α) : Option (List α × List α) :=
  if stream.length < H.width then none
  else
    let size := H.decode (stream.take H.width)
    if stream.length < H.width + size then none
    else some ((stream.drop H.width).take size, stream.drop (H.width + size))

variable {H}

@[simp] theorem takeFrame_nil : H.takeFrame [] = none := by
  unfold takeFrame
  rw [if_pos (by simpa using H.width_pos)]

theorem takeFrame_frame {payload rest : List α} (hfit : payload.length < H.bound) :
    H.takeFrame (H.frame payload ++ rest) = some (payload, rest) := by
  have hlen := H.length_frame payload
  have hhead : (H.frame payload ++ rest).take H.width = H.encode payload.length := by
    rw [List.take_append_of_le_length (by omega), H.take_frame]
  have hbody : ((H.frame payload ++ rest).drop H.width).take payload.length = payload := by
    rw [List.drop_append_of_le_length (by omega), H.drop_frame, List.take_left]
  have hrest : (H.frame payload ++ rest).drop (H.width + payload.length) = rest := by
    rw [← hlen, List.drop_left]
  unfold takeFrame
  rw [if_neg (by simp; omega)]
  simp only [hhead, H.decode_encode _ hfit]
  rw [if_neg (by simp), hbody, hrest]

theorem takeFrame_append {stream payload rest : List α}
    (h : H.takeFrame stream = some (payload, rest)) (more : List α) :
    H.takeFrame (stream ++ more) = some (payload, rest ++ more) := by
  unfold takeFrame at h
  split at h
  · exact absurd h (by simp)
  · rename_i hwidth
    simp only at h
    split at h
    · exact absurd h (by simp)
    · rename_i hsize
      simp only [Option.some.injEq, Prod.mk.injEq] at h
      obtain ⟨rfl, rfl⟩ := h
      have hhead : (stream ++ more).take H.width = stream.take H.width :=
        List.take_append_of_le_length (by omega)
      unfold takeFrame
      rw [hhead, List.length_append, if_neg (by omega)]
      simp only
      rw [if_neg (by omega), List.drop_append_of_le_length (by omega),
        List.drop_append_of_le_length (by omega),
        List.take_append_of_le_length (by rw [List.length_drop]; omega)]

/-- A stream starts with at most one frame. -/
theorem frame_unique {payload payload' rest rest' : List α} (hfit : payload.length < H.bound)
    (hfit' : payload'.length < H.bound)
    (h : H.frame payload ++ rest = H.frame payload' ++ rest') :
    payload = payload' ∧ rest = rest' := by
  have htake : H.takeFrame (H.frame payload ++ rest) = some (payload, rest) := takeFrame_frame hfit
  rw [h, takeFrame_frame hfit', Option.some.injEq, Prod.mk.injEq] at htake
  exact ⟨htake.1.symm, htake.2.symm⟩

end Header
