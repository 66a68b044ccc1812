/-
The protobuf wire format.

A message on the wire is a run of fields, each of them a tag, which is the field's
number and the kind of its value in one variable-length integer, and then the value:
another such integer, or a length and so many bytes.  Strings, byte fields and
messages inside messages are all of the second kind.  Fixed-width values and groups
are left out; a stream that has one is refused.

Which fields a message type has is not known here.  A type is written as the list of
its present fields and read back by asking a list of fields for the occurrences of a
number: the last one counts for a single value, all of them count for a repeated one,
and the occurrences of a message are put together before they are read, which is what
merging them comes to.
-/
import Mathlib.Data.List.Basic

namespace Protobuf

/-! ### Variable-length integers -/

/-- The loop of `varint`: seven bits a byte, the least significant first. -/
def varintLoop : Nat → Nat → List UInt8
  | 0, _ => []
  | fuel + 1, n =>
      if n < 128 then [UInt8.ofNat n]
      else UInt8.ofNat (128 + n % 128) :: varintLoop fuel (n / 128)

/-- The bytes of a number; all but the last have their top bit set. -/
def varint (n : Nat) : List UInt8 := varintLoop (n + 1) n

/-- The number at the front of a stream, and what follows it. -/
def readVarint : List UInt8 → Option (Nat × List UInt8)
  | [] => none
  | b :: rest =>
      if b.toNat < 128 then some (b.toNat, rest)
      else match readVarint rest with
        | none => none
        | some (n, rest) => some (b.toNat - 128 + 128 * n, rest)

theorem readVarint_varintLoop (rest : List UInt8) :
    ∀ (fuel n : Nat), n < fuel → readVarint (varintLoop fuel n ++ rest) = some (n, rest) := by
  intro fuel
  induction fuel with
  | zero => intro n h; omega
  | succ fuel ih =>
      intro n h
      rw [varintLoop]
      split
      · rename_i hsmall
        have hb : (UInt8.ofNat n).toNat = n := by
          rw [UInt8.toNat_ofNat']
          omega
        simp [readVarint, hb, hsmall]
      · rename_i hbig
        have hb : (UInt8.ofNat (128 + n % 128)).toNat = 128 + n % 128 := by
          rw [UInt8.toNat_ofNat']
          omega
        rw [List.cons_append, readVarint, hb, if_neg (by omega), ih (n / 128) (by omega)]
        simp only [Option.some.injEq, Prod.mk.injEq, and_true]
        omega

/-- **A number that was written is read back, and nothing after it is touched.** -/
theorem readVarint_varint (n : Nat) (rest : List UInt8) :
    readVarint (varint n ++ rest) = some (n, rest) :=
  readVarint_varintLoop rest (n + 1) n (Nat.lt_succ_self n)

theorem varint_ne_nil (n : Nat) : varint n ≠ [] := by
  unfold varint
  rw [varintLoop]
  split <;> simp

/-! ### Fields

A field is its number, the kind of its value and the value.  The reader has to know the
kind to know where the value ends, and every field takes at least one byte, so the length of
the stream is enough fuel to read all of them.
-/

inductive Value
  | number (n : Nat)
  | bytes (b : List UInt8)
deriving DecidableEq

structure Field where
  id : Nat
  value : Value
deriving DecidableEq

/-- The low three bits of the tag. -/
def Value.kind : Value → Nat
  | .number _ => 0
  | .bytes _ => 2

def Value.write : Value → List UInt8
  | .number n => varint n
  | .bytes b => varint b.length ++ b

def Field.write (f : Field) : List UInt8 := varint (8 * f.id + f.value.kind) ++ f.value.write

/-- The bytes of a message. -/
def write (fields : List Field) : List UInt8 := fields.flatMap Field.write

/-- The value of the given kind at the front of a stream, and what follows it. -/
def readValue (kind : Nat) (bs : List UInt8) : Option (Value × List UInt8) :=
  match kind with
  | 0 => (readVarint bs).map fun (n, rest) => (.number n, rest)
  | 2 =>
      match readVarint bs with
      | none => none
      | some (size, rest) =>
          if rest.length < size then none else some (.bytes (rest.take size), rest.drop size)
  | _ => none

/-- The loop of `read`: a field from the front while there is anything left. -/
def readLoop : Nat → List UInt8 → Option (List Field)
  | _, [] => some []
  | 0, _ :: _ => none
  | fuel + 1, b :: bs =>
      match readVarint (b :: bs) with
      | none => none
      | some (tag, rest) =>
          match readValue (tag % 8) rest with
          | none => none
          | some (value, rest) =>
              match readLoop fuel rest with
              | none => none
              | some fields => some (⟨tag / 8, value⟩ :: fields)

/-- The fields of a message; each takes at least a byte, so its length is fuel enough. -/
def read (bs : List UInt8) : Option (List Field) := readLoop bs.length bs

theorem readValue_write (v : Value) (rest : List UInt8) :
    readValue v.kind (v.write ++ rest) = some (v, rest) := by
  cases v with
  | number n => simp [Value.kind, Value.write, readValue, readVarint_varint]
  | bytes b =>
      simp only [Value.kind, Value.write, readValue, List.append_assoc, readVarint_varint]
      rw [if_neg (by simp), List.take_left, List.drop_left]

theorem Field.write_ne_nil (f : Field) : f.write ≠ [] := by
  simp [Field.write, varint_ne_nil]

theorem readLoop_write :
    ∀ (fields : List Field) (fuel : Nat), fields.length ≤ fuel →
      readLoop fuel (write fields) = some fields := by
  intro fields
  induction fields with
  | nil => intro fuel _; cases fuel <;> rfl
  | cons f rest ih =>
      intro fuel hfuel
      match fuel with
      | 0 => simp at hfuel
      | fuel + 1 =>
          have hkind : f.value.kind < 8 := by cases f.value <;> simp [Value.kind]
          have htag : readVarint (f.write ++ write rest)
              = some (8 * f.id + f.value.kind, f.value.write ++ write rest) := by
            rw [Field.write, List.append_assoc, readVarint_varint]
          have hvalue := readValue_write f.value (write rest)
          have hrest := ih fuel (by simpa using hfuel)
          have hne : f.write ++ write rest ≠ [] := by simp [f.write_ne_nil]
          show readLoop (fuel + 1) (f.write ++ write rest) = some (f :: rest)
          cases hbytes : f.write ++ write rest with
          | nil => exact absurd hbytes hne
          | cons b bs =>
              rw [hbytes] at htag
              rw [readLoop, htag]
              simp only [show (8 * f.id + f.value.kind) % 8 = f.value.kind by omega,
                show (8 * f.id + f.value.kind) / 8 = f.id by omega, hvalue, hrest]

theorem length_le_write (fields : List Field) : fields.length ≤ (write fields).length := by
  induction fields with
  | nil => exact Nat.le_refl 0
  | cons f rest ih =>
      have hpos : 0 < f.write.length := List.length_pos_iff.mpr f.write_ne_nil
      show rest.length + 1 ≤ (f.write ++ write rest).length
      rw [List.length_append]
      omega

/-- **The fields that were written are read back.** -/
@[simp] theorem read_write (fields : List Field) : read (write fields) = some fields :=
  readLoop_write fields _ (length_le_write fields)

/-! ### Messages as lists of fields

What a parser makes of a message depends on the occurrences of each field's number alone.
So for every way a field is written down, absent, once or repeatedly, there is one lemma
about the occurrences of its number and one about those of any other.
-/

section Messages

variable {α : Type}

/-- A field that is present or not. -/
def optional (id : Nat) (value : Option Value) : List Field :=
  value.toList.map fun v => ⟨id, v⟩

/-- A field that occurs any number of times. -/
def repeated (id : Nat) (values : List Value) : List Field := values.map fun v => ⟨id, v⟩

/-- The values of a field, in order. -/
def occurrences (id : Nat) (fields : List Field) : List Value :=
  fields.filterMap fun f => if f.id = id then some f.value else none

@[simp] theorem occurrences_append (id : Nat) (l l' : List Field) :
    occurrences id (l ++ l') = occurrences id l ++ occurrences id l' := by
  simp [occurrences]

@[simp] theorem occurrences_repeated (id : Nat) (values : List Value) :
    occurrences id (repeated id values) = values := by
  simp [occurrences, repeated, List.filterMap_map]

@[simp] theorem occurrences_repeated_of_ne {id id' : Nat} (h : id' ≠ id) (values : List Value) :
    occurrences id (repeated id' values) = [] := by
  simp [occurrences, repeated, List.filterMap_map, h]

@[simp] theorem occurrences_optional (id : Nat) (value : Option Value) :
    occurrences id (optional id value) = value.toList :=
  occurrences_repeated id value.toList

@[simp] theorem occurrences_optional_of_ne {id id' : Nat} (h : id' ≠ id) (value : Option Value) :
    occurrences id (optional id' value) = [] :=
  occurrences_repeated_of_ne h value.toList

def Value.asNumber : Value → Option Nat
  | .number n => some n
  | .bytes _ => none

def Value.asBytes : Value → Option (List UInt8)
  | .number _ => none
  | .bytes b => some b

/-- The last number of a field. -/
def lastNumber (id : Nat) (fields : List Field) : Option Nat :=
  ((occurrences id fields).filterMap Value.asNumber).getLast?

/-- All the byte strings of a field. -/
def allBytes (id : Nat) (fields : List Field) : List (List UInt8) :=
  (occurrences id fields).filterMap Value.asBytes

/-- A message inside a message: its occurrences put together, if there are any. -/
def submessage (id : Nat) (fields : List Field) (ofFields : List Field → Option α) :
    Option (Option α) :=
  match allBytes id fields with
  | [] => some none
  | parts =>
      match read parts.flatten with
      | none => none
      | some inner => (ofFields inner).map some

variable {id : Nat} {fields : List Field}

theorem lastNumber_of_occurrences {n : Option Nat}
    (h : occurrences id fields = (n.map Value.number).toList) : lastNumber id fields = n := by
  rw [lastNumber, h]
  cases n <;> rfl

theorem lastBytes_of_occurrences {b : Option (List UInt8)}
    (h : occurrences id fields = (b.map Value.bytes).toList) :
    (allBytes id fields).getLast? = b := by
  rw [allBytes, h]
  cases b <;> rfl

theorem allBytes_of_occurrences {l : List (List UInt8)}
    (h : occurrences id fields = l.map Value.bytes) : allBytes id fields = l := by
  rw [allBytes, h, List.filterMap_map]
  exact List.filterMap_some

/-- A message inside a message is read back. -/
theorem submessage_of_occurrences {m : Option α} {toFields : α → List Field}
    {ofFields : List Field → Option α}
    (h : occurrences id fields = (m.map fun a => .bytes (write (toFields a))).toList)
    (hback : ∀ a, ofFields (toFields a) = some a) : submessage id fields ofFields = some m := by
  rw [submessage, allBytes, h]
  cases m with
  | none => rfl
  | some a => simp [Value.asBytes, hback]

end Messages

end Protobuf
