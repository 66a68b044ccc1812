/-
The bytes of the messages of `Drp.proto`.

This is the code that the protobuf compiler generates from that file, as far as the
program relies on it.  Enumerators it does not know are dropped by the parser, and a
negative `int32` goes out as a number of 64 bits.

`Codec` is a parameter of everything that is said about runs.  This is one value of it, with
the proof that it does what the program relies on, so that runs with real messages in them
can be played.
-/
import Distray.Lib.Protobuf
import Distray.Drp

namespace Distray

namespace DrpCodec

open Protobuf

/-! ### Values

On the wire an enumerator, a flag and an `int32` are all variable-length integers.  For each
of the three there is a way there and a way back, and what matters is that the last
occurrence of a field that was written gives the value that was written.
-/

def ofRequestType (t : RequestType) : Value := .number t.number

def toRequestType : Nat → Option RequestType
  | 1 => some .welcome
  | 2 => some .copyIn
  | 3 => some .execute
  | 4 => some .copyOut
  | _ => none

def ofInt32 (n : Int32) : Value := .number (n.toInt % 2 ^ 64).toNat

def toInt32 (n : Nat) : Int32 := Int32.ofInt n

def ofBool (b : Bool) : Value := .number b.toNat

def toBool (n : Nat) : Bool := n ≠ 0

@[simp] theorem toRequestType_number (t : RequestType) : toRequestType t.number = some t := by
  cases t <;> rfl

@[simp] theorem toInt32_ofInt32 (n : Int32) : toInt32 (n.toInt % 2 ^ 64).toNat = n := by
  unfold toInt32
  rw [Int.toNat_of_nonneg (Int.emod_nonneg _ (by decide)), Int32.ofInt_eq_iff_bmod_eq_toInt]
  have hmod : n.toInt % 2 ^ 64 % 2 ^ 32 = n.toInt % 2 ^ 32 :=
    Int.emod_emod_of_dvd _ (by decide)
  calc (n.toInt % 2 ^ 64).bmod (2 ^ 32)
      = (n.toInt % 2 ^ 64 % 2 ^ 32).bmod (2 ^ 32) := (Int.emod_bmod _ _).symm
    _ = (n.toInt % 2 ^ 32).bmod (2 ^ 32) := by rw [hmod]
    _ = n.toInt.bmod (2 ^ 32) := Int.emod_bmod _ _
    _ = n.toInt := Int32.toInt_bmod n

@[simp] theorem toBool_toNat (b : Bool) : toBool b.toNat = b := by cases b <;> rfl

private theorem lastType_of_occurrences {id : Nat} {fields : List Field} {t : Option RequestType}
    (h : occurrences id fields = (t.map ofRequestType).toList) :
    (lastNumber id fields).bind toRequestType = t := by
  rw [lastNumber_of_occurrences (n := t.map RequestType.number) (by rw [h, Option.map_map]; rfl)]
  cases t with
  | none => rfl
  | some t => exact toRequestType_number t

private theorem lastInt32_of_occurrences {id : Nat} {fields : List Field} {n : Option Int32}
    (h : occurrences id fields = (n.map ofInt32).toList) :
    (lastNumber id fields).map toInt32 = n := by
  rw [lastNumber_of_occurrences (n := n.map fun n => (n.toInt % 2 ^ 64).toNat)
    (by rw [h, Option.map_map]; rfl)]
  cases n with
  | none => rfl
  | some n => exact congrArg some (toInt32_ofInt32 n)

private theorem lastBool_of_occurrences {id : Nat} {fields : List Field} {b : Option Bool}
    (h : occurrences id fields = (b.map ofBool).toList) :
    (lastNumber id fields).map toBool = b := by
  rw [lastNumber_of_occurrences (n := b.map Bool.toNat) (by rw [h, Option.map_map]; rfl)]
  cases b with
  | none => rfl
  | some b => exact congrArg some (toBool_toNat b)

/-! ### Requests -/

def fieldsOfWelcomeRequest (_ : WelcomeRequest) : List Field := []

def fieldsOfCopyInRequest (m : CopyInRequest) : List Field :=
  optional 1 (m.pathname?.map .bytes) ++ optional 2 (m.content?.map .bytes)

def fieldsOfExecuteRequest (m : ExecuteRequest) : List Field :=
  optional 1 (m.executable?.map .bytes) ++ repeated 2 (m.argument.map .bytes)

def fieldsOfCopyOutRequest (m : CopyOutRequest) : List Field :=
  optional 1 (m.pathname?.map .bytes)

def fieldsOfRequest (m : Request) : List Field :=
  optional 2 (m.requestType?.map ofRequestType) ++
    (optional 10 (m.welcomeRequest?.map fun m => .bytes (write (fieldsOfWelcomeRequest m))) ++
      (optional 11 (m.copyInRequest?.map fun m => .bytes (write (fieldsOfCopyInRequest m))) ++
        (optional 12 (m.executeRequest?.map fun m => .bytes (write (fieldsOfExecuteRequest m))) ++
          optional 13 (m.copyOutRequest?.map fun m => .bytes (write (fieldsOfCopyOutRequest m))))))

def welcomeRequestOf (_ : List Field) : Option WelcomeRequest := some {}

def copyInRequestOf (fields : List Field) : Option CopyInRequest :=
  some { pathname? := (allBytes 1 fields).getLast?, content? := (allBytes 2 fields).getLast? }

def executeRequestOf (fields : List Field) : Option ExecuteRequest :=
  some { executable? := (allBytes 1 fields).getLast?, argument := allBytes 2 fields }

def copyOutRequestOf (fields : List Field) : Option CopyOutRequest :=
  some { pathname? := (allBytes 1 fields).getLast? }

def requestOf (fields : List Field) : Option Request := do
  let welcomeRequest? ← submessage 10 fields welcomeRequestOf
  let copyInRequest? ← submessage 11 fields copyInRequestOf
  let executeRequest? ← submessage 12 fields executeRequestOf
  let copyOutRequest? ← submessage 13 fields copyOutRequestOf
  some { requestType? := (lastNumber 2 fields).bind toRequestType
         welcomeRequest? := welcomeRequest?
         copyInRequest? := copyInRequest?
         executeRequest? := executeRequest?
         copyOutRequest? := copyOutRequest? }

theorem welcomeRequestOf_fields (m : WelcomeRequest) :
    welcomeRequestOf (fieldsOfWelcomeRequest m) = some m := rfl

theorem copyInRequestOf_fields (m : CopyInRequest) :
    copyInRequestOf (fieldsOfCopyInRequest m) = some m := by
  unfold copyInRequestOf fieldsOfCopyInRequest
  rw [lastBytes_of_occurrences (b := m.pathname?) (by simp),
    lastBytes_of_occurrences (b := m.content?) (by simp)]

theorem executeRequestOf_fields (m : ExecuteRequest) :
    executeRequestOf (fieldsOfExecuteRequest m) = some m := by
  unfold executeRequestOf fieldsOfExecuteRequest
  rw [lastBytes_of_occurrences (b := m.executable?) (by simp),
    allBytes_of_occurrences (l := m.argument) (by simp)]

theorem copyOutRequestOf_fields (m : CopyOutRequest) :
    copyOutRequestOf (fieldsOfCopyOutRequest m) = some m := by
  unfold copyOutRequestOf fieldsOfCopyOutRequest
  rw [lastBytes_of_occurrences (b := m.pathname?) (by simp)]

theorem requestOf_fields (m : Request) : requestOf (fieldsOfRequest m) = some m := by
  unfold requestOf
  rw [lastType_of_occurrences (t := m.requestType?) (by simp [fieldsOfRequest]),
    submessage_of_occurrences (m := m.welcomeRequest?) (by simp [fieldsOfRequest])
      welcomeRequestOf_fields,
    submessage_of_occurrences (m := m.copyInRequest?) (by simp [fieldsOfRequest])
      copyInRequestOf_fields,
    submessage_of_occurrences (m := m.executeRequest?) (by simp [fieldsOfRequest])
      executeRequestOf_fields,
    submessage_of_occurrences (m := m.copyOutRequest?) (by simp [fieldsOfRequest])
      copyOutRequestOf_fields]
  rfl

/-! ### Responses -/

def fieldsOfWelcomeResponse (m : WelcomeResponse) : List Field :=
  optional 1 (m.hostname?.map .bytes) ++ optional 2 (m.coreCount?.map ofInt32)

def fieldsOfCopyInResponse (m : CopyInResponse) : List Field :=
  optional 1 (m.success?.map ofBool)

def fieldsOfExecuteResponse (m : ExecuteResponse) : List Field :=
  optional 1 (m.status?.map ofInt32)

def fieldsOfCopyOutResponse (m : CopyOutResponse) : List Field :=
  optional 1 (m.success?.map ofBool) ++ optional 2 (m.content?.map .bytes)

def fieldsOfResponse (m : Response) : List Field :=
  optional 2 (m.requestType?.map ofRequestType) ++
    (optional 10 (m.welcomeResponse?.map fun m => .bytes (write (fieldsOfWelcomeResponse m))) ++
      (optional 11 (m.copyInResponse?.map fun m => .bytes (write (fieldsOfCopyInResponse m))) ++
        (optional 12 (m.executeResponse?.map fun m => .bytes (write (fieldsOfExecuteResponse m))) ++
          optional 13
            (m.copyOutResponse?.map fun m => .bytes (write (fieldsOfCopyOutResponse m))))))

def welcomeResponseOf (fields : List Field) : Option WelcomeResponse :=
  some
    { hostname? := (allBytes 1 fields).getLast?
      coreCount? := (lastNumber 2 fields).map toInt32 }

def copyInResponseOf (fields : List Field) : Option CopyInResponse :=
  some { success? := (lastNumber 1 fields).map toBool }

def executeResponseOf (fields : List Field) : Option ExecuteResponse :=
  some { status? := (lastNumber 1 fields).map toInt32 }

def copyOutResponseOf (fields : List Field) : Option CopyOutResponse :=
  some { success? := (lastNumber 1 fields).map toBool, content? := (allBytes 2 fields).getLast? }

def responseOf (fields : List Field) : Option Response := do
  let welcomeResponse? ← submessage 10 fields welcomeResponseOf
  let copyInResponse? ← submessage 11 fields copyInResponseOf
  let executeResponse? ← submessage 12 fields executeResponseOf
  let copyOutResponse? ← submessage 13 fields copyOutResponseOf
  some { requestType? := (lastNumber 2 fields).bind toRequestType
         welcomeResponse? := welcomeResponse?
         copyInResponse? := copyInResponse?
         executeResponse? := executeResponse?
         copyOutResponse? := copyOutResponse? }

theorem welcomeResponseOf_fields (m : WelcomeResponse) :
    welcomeResponseOf (fieldsOfWelcomeResponse m) = some m := by
  unfold welcomeResponseOf fieldsOfWelcomeResponse
  rw [lastBytes_of_occurrences (b := m.hostname?) (by simp),
    lastInt32_of_occurrences (n := m.coreCount?) (by simp)]

theorem copyInResponseOf_fields (m : CopyInResponse) :
    copyInResponseOf (fieldsOfCopyInResponse m) = some m := by
  unfold copyInResponseOf fieldsOfCopyInResponse
  rw [lastBool_of_occurrences (b := m.success?) (by simp)]

theorem executeResponseOf_fields (m : ExecuteResponse) :
    executeResponseOf (fieldsOfExecuteResponse m) = some m := by
  unfold executeResponseOf fieldsOfExecuteResponse
  rw [lastInt32_of_occurrences (n := m.status?) (by simp)]

theorem copyOutResponseOf_fields (m : CopyOutResponse) :
    copyOutResponseOf (fieldsOfCopyOutResponse m) = some m := by
  unfold copyOutResponseOf fieldsOfCopyOutResponse
  rw [lastBool_of_occurrences (b := m.success?) (by simp),
    lastBytes_of_occurrences (b := m.content?) (by simp)]

theorem responseOf_fields (m : Response) : responseOf (fieldsOfResponse m) = some m := by
  unfold responseOf
  rw [lastType_of_occurrences (t := m.requestType?) (by simp [fieldsOfResponse]),
    submessage_of_occurrences (m := m.welcomeResponse?) (by simp [fieldsOfResponse])
      welcomeResponseOf_fields,
    submessage_of_occurrences (m := m.copyInResponse?) (by simp [fieldsOfResponse])
      copyInResponseOf_fields,
    submessage_of_occurrences (m := m.executeResponse?) (by simp [fieldsOfResponse])
      executeResponseOf_fields,
    submessage_of_occurrences (m := m.copyOutResponse?) (by simp [fieldsOfResponse])
      copyOutResponseOf_fields]
  rfl

end DrpCodec

/-- The generated code. -/
def drpCodec : Codec where
  serializeRequest m := Protobuf.write (DrpCodec.fieldsOfRequest m)
  parseRequest bs := (Protobuf.read bs).bind DrpCodec.requestOf
  serializeResponse m := Protobuf.write (DrpCodec.fieldsOfResponse m)
  parseResponse bs := (Protobuf.read bs).bind DrpCodec.responseOf

/-- **Parsing undoes serializing.** -/
theorem drpCodec_sound : drpCodec.Sound where
  request m := by simp [drpCodec, DrpCodec.requestOf_fields]
  response m := by simp [drpCodec, DrpCodec.responseOf_fields]

example : drpCodec.serializeRequest { requestType? := some .welcome } = [16, 1] := by decide

end Distray
