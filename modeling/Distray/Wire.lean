/-
The wire format: a length in network byte order, then the message.

The host is taken to be little-endian, as every machine the program is built for
is; `htonl` and `ntohl` then reverse the four octets of a word.  `sendMessage` and
`receiveMessage` are the blocking half of the code, which the worker uses.

A reader who takes a frame off a stream does not see what comes after it.  So most of what is
known about frames has nothing to do with bytes, and is taken from `Framing`; here is what
the header is.
-/
import Distray.Lib.Octets
import Distray.Lib.Framing
import Distray.Parameters

namespace Distray

open Octets

/-- The most the controller's side accepts in one message. -/
def MAX_INCOMING_FILE_SIZE : Nat := 10 * 1024 * 1024

/-- Host to network byte order: the octets of a 32-bit word reversed. -/
def htonl (n : Nat) : Nat := ofLittle (little 4 n).reverse

/-- Network to host byte order. -/
def ntohl (n : Nat) : Nat := ofLittle (little 4 n).reverse

/-- A word converted to network order lies in memory with its high octet first. -/
theorem little_htonl (n : Nat) : little 4 (htonl n) = big 4 n := by
  have h := little_ofLittle (little 4 n).reverse
  rwa [List.length_reverse, length_little] at h

/-- Converting back reads the octets in the order they came. -/
theorem ntohl_ofLittle {bs : Bytes} (h : bs.length = 4) :
    ntohl (ofLittle bs) = ofLittle bs.reverse := by
  rw [ntohl, ← h, little_ofLittle]

/-- The four-byte length in front of every message. -/
def lengthHeader : Header UInt8 where
  width := 4
  bound := 2 ^ 32
  encode := big 4
  decode bs := ofLittle bs.reverse
  width_pos := by omega
  length_encode n := length_big 4 n
  decode_encode n hn := by
    rw [big, List.reverse_reverse, ofLittle_little]
    exact Nat.mod_eq_of_lt (by simpa using hn)

@[simp] theorem lengthHeader_width : lengthHeader.width = 4 := rfl
@[simp] theorem lengthHeader_bound : lengthHeader.bound = 2 ^ 32 := rfl

/-- A message as it goes over a socket. -/
abbrev frame (data : Bytes) : Bytes := lengthHeader.frame data

theorem frame_eq (data : Bytes) : frame data = big 4 data.length ++ data := rfl

/-! ### The blocking half -/

/--
What `send_message` hands to `send`: `buf` up to `full_size`.  Both sizes are
`uint32_t`.
-/
def sendMessage (data : Bytes) : Bytes :=
  let size := data.length % 2 ^ 32
  let fullSize := (size + 4) % 2 ^ 32
  (little 4 (htonl size) ++ data).take fullSize

theorem sendMessage_eq {data : Bytes} (h : data.length + 4 < 2 ^ 32) :
    sendMessage data = frame data := by
  have hsize : data.length % 2 ^ 32 = data.length := Nat.mod_eq_of_lt (by omega)
  have hfull : (data.length + 4) % 2 ^ 32 = data.length + 4 := Nat.mod_eq_of_lt h
  simp only [sendMessage, hsize, hfull, little_htonl, frame_eq]
  exact List.take_of_length_le (by simp; omega)

/-- How `receive_message` ends once both its `recv` calls have what they wait for. -/
inductive Received
  | message (data : Bytes)
  | closed
deriving DecidableEq, Repr

/--
`receive_message` on the bytes that have arrived; `none` while it still blocks.  A
`recv` of no bytes returns zero, which is read as the other side having closed.
-/
def receiveMessage (stream : Bytes) : Option (Received × Bytes) :=
  match lengthHeader.takeFrame stream with
  | none => none
  | some (data, rest) =>
      if data.length = 0 then some (.closed, rest) else some (.message data, rest)

end Distray
