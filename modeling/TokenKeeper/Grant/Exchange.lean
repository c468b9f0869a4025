import TokenKeeper.Grant.Credentials
import TokenKeeper.Token.Resource
import TokenKeeper.Trace
/-! One exchange with an authority: the request, what comes back, and what is made of it. -/
namespace TokenKeeper.Exchange

inductive Encoding where
  | json
  | form
deriving DecidableEq

namespace Encoding

def contentType : Encoding → String
  | json => "application/json"
  | form => "application/x-www-form-urlencoded"

def body (encoding : Encoding) (credentials : Credentials) : List Char :=
  match encoding with
  | json => credentials.json
  | form => credentials.form

end Encoding

structure Endpoint where
  origin : String
  path : String
deriving DecidableEq

def Endpoint.url (endpoint : Endpoint) : String := endpoint.origin ++ endpoint.path

structure Request where
  line : String
  contentType : String
  authorization : Option String := none
  body : String
deriving DecidableEq

def request (endpoint : Endpoint) (encoding : Encoding) (credentials : Credentials) : Request where
  line := "POST " ++ endpoint.path ++ " HTTP/1.1"
  contentType := encoding.contentType
  body := String.ofList (encoding.body credentials)

/-- What the transport brings back for a request. -/
inductive Delivery where
  /-- Nobody takes the request. -/
  | refused
  /-- The request is taken but not answered. -/
  | closed
  /-- The answer ends before its body does. -/
  | cut (status : Nat) (body : List UInt8)
  | whole (status : Nat) (body : List UInt8)
deriving DecidableEq

inductive Failure where
  | notSent
  | notRead
  /-- The authority reports an error. -/
  | refusal (status : Nat) (body : String)
  | unreadable (fault : Json.Fault)
deriving DecidableEq

def Failure.message : Failure → String
  | notSent => "error sending request to authority"
  | notRead => "error reading response body"
  | refusal _ body => "error requesting token from authority: " ++ body
  | unreadable _ => "error deserializing token body from authority"

def isError (status : Nat) : Bool := 400 ≤ status && status < 600

def isFinal (status : Nat) : Bool := status = 101 || (200 ≤ status && status < 1000)

def isBodiless (status : Nat) : Bool := status = 101 || status = 204 || status = 304

/-- What of a delivery counts. After an answer that is not final nothing more comes. -/
def Delivery.received (delivery : Delivery) : Delivery :=
  match delivery with
  | refused | closed => delivery
  | cut status _ | whole status _ =>
    if !isFinal status then closed
    else if isBodiless status then whole status []
    else delivery

/-- An answer whose head is there; `ended` tells whether its body comes to an end. -/
structure Answer where
  status : Nat
  body : List UInt8
  ended : Bool
deriving DecidableEq

def Delivery.answer (delivery : Delivery) : Except Failure Answer :=
  match delivery.received with
  | refused | closed => .error .notSent
  | cut status body => .ok ⟨status, body, false⟩
  | whole status body => .ok ⟨status, body, true⟩

namespace Answer

def octets (answer : Answer) : Except Failure (List UInt8) :=
  if answer.ended then .ok answer.body else .error .notRead

def text (answer : Answer) : Except Failure String := do
  let octets ← answer.octets
  return String.ofList (Text.Utf8.decodeLossy octets)

def resource (answer : Answer) : Except Failure Resource :=
  if isError answer.status then do
    let body ← answer.text
    throw (.refusal answer.status body)
  else do
    let octets ← answer.octets
    (Resource.ofJson octets).mapError .unreadable

end Answer

def outcome (delivery : Delivery) : Except Failure Resource := do
  let answer ← delivery.answer
  answer.resource

def Delivery.taken (delivery : Delivery) : Bool := delivery != .refused

def Delivery.status? (delivery : Delivery) : Option Nat :=
  delivery.answer.toOption.map (·.status)

def notices (endpoint : Endpoint) (credentials : Credentials) (delivery : Delivery) :
    List Notice :=
  [.exchange endpoint.url Credentials.grantType credentials.clientId.text, .requesting] ++
    (delivery.status?.map .responded).toList ++
    match outcome delivery with
    | .ok resource => [.parsed resource.usable.isSome resource.lifetime.toNat]
    | .error failure => [.exchangeFailed failure.message]

/-- One exchange with an authority: what is logged of it, and what comes of it. -/
def run (verbosity : Verbosity) (endpoint : Endpoint) (encoding : Encoding)
    (authority : Request → Delivery) (credentials : Credentials) :
    List Notice × Except Failure Resource :=
  let delivery := authority (request endpoint encoding credentials)
  ((notices endpoint credentials delivery).filter verbosity.keeps, outcome delivery)

end TokenKeeper.Exchange
