/-
The messages of `Drp.proto`.

Every field of the protocol is optional, so a message is a record of options and
the generated getters return the declared default when a field is absent.  The
bytes of a message are the protobuf library's business: `Codec` is that library as
far as the program uses it, and `Codec.Sound` is what the program relies on.
-/
import Distray.Util

namespace Distray

inductive RequestType
  | welcome
  | copyIn
  | execute
  | copyOut
deriving DecidableEq, Repr

/-- The number of an enumerator in `Drp.proto`. -/
def RequestType.number : RequestType → Nat
  | .welcome => 1
  | .copyIn => 2
  | .execute => 3
  | .copyOut => 4

/-! ### Requests, from controller to worker -/

structure WelcomeRequest where
deriving DecidableEq, Repr

structure CopyInRequest where
  pathname? : Option Bytes := none
  content? : Option Bytes := none
deriving DecidableEq, Repr

structure ExecuteRequest where
  executable? : Option Bytes := none
  argument : List Bytes := []
deriving DecidableEq, Repr

structure CopyOutRequest where
  pathname? : Option Bytes := none
deriving DecidableEq, Repr

structure Request where
  requestType? : Option RequestType := none
  welcomeRequest? : Option WelcomeRequest := none
  copyInRequest? : Option CopyInRequest := none
  executeRequest? : Option ExecuteRequest := none
  copyOutRequest? : Option CopyOutRequest := none
deriving DecidableEq, Repr

def CopyInRequest.pathname (m : CopyInRequest) : Bytes := m.pathname?.getD []
def CopyInRequest.content (m : CopyInRequest) : Bytes := m.content?.getD []
def ExecuteRequest.executable (m : ExecuteRequest) : Bytes := m.executable?.getD []
def CopyOutRequest.pathname (m : CopyOutRequest) : Bytes := m.pathname?.getD []
def Request.requestType (m : Request) : RequestType := m.requestType?.getD .welcome
def Request.copyInRequest (m : Request) : CopyInRequest := m.copyInRequest?.getD {}
def Request.executeRequest (m : Request) : ExecuteRequest := m.executeRequest?.getD {}
def Request.copyOutRequest (m : Request) : CopyOutRequest := m.copyOutRequest?.getD {}

/-! ### Responses, from worker to controller -/

structure WelcomeResponse where
  hostname? : Option Bytes := none
  coreCount? : Option Int32 := none
deriving DecidableEq, Repr

structure CopyInResponse where
  success? : Option Bool := none
deriving DecidableEq, Repr

structure ExecuteResponse where
  status? : Option Int32 := none
deriving DecidableEq, Repr

structure CopyOutResponse where
  success? : Option Bool := none
  content? : Option Bytes := none
deriving DecidableEq, Repr

structure Response where
  requestType? : Option RequestType := none
  welcomeResponse? : Option WelcomeResponse := none
  copyInResponse? : Option CopyInResponse := none
  executeResponse? : Option ExecuteResponse := none
  copyOutResponse? : Option CopyOutResponse := none
deriving DecidableEq, Repr

def WelcomeResponse.hostname (m : WelcomeResponse) : Bytes := m.hostname?.getD []
def CopyInResponse.success (m : CopyInResponse) : Bool := m.success?.getD false
def ExecuteResponse.status (m : ExecuteResponse) : Int32 := m.status?.getD 0
def CopyOutResponse.success (m : CopyOutResponse) : Bool := m.success?.getD false
def CopyOutResponse.content (m : CopyOutResponse) : Bytes := m.content?.getD []
def Response.requestType (m : Response) : RequestType := m.requestType?.getD .welcome
def Response.welcomeResponse (m : Response) : WelcomeResponse := m.welcomeResponse?.getD {}
def Response.copyInResponse (m : Response) : CopyInResponse := m.copyInResponse?.getD {}
def Response.executeResponse (m : Response) : ExecuteResponse := m.executeResponse?.getD {}
def Response.copyOutResponse (m : Response) : CopyOutResponse := m.copyOutResponse?.getD {}

/-! ### The protobuf library

The serializer and the parser are generated code, which is not in the repository.  All that
the program counts on is that what was serialized is parsed as it was; everything said here
about a run that has messages in it assumes no more than that.
-/

/-- Serializing and parsing the two top-level messages. -/
structure Codec where
  serializeRequest : Request → Bytes
  parseRequest : Bytes → Option Request
  serializeResponse : Response → Bytes
  parseResponse : Bytes → Option Response

/-- Parsing what was serialized gives the message back. -/
structure Codec.Sound (codec : Codec) : Prop where
  request : ∀ m, codec.parseRequest (codec.serializeRequest m) = some m
  response : ∀ m, codec.parseResponse (codec.serializeResponse m) = some m

end Distray
