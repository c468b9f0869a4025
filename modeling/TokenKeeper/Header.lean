import TokenKeeper.Credential
import TokenKeeper.Text.Utf8
import TokenKeeper.Trace
/-! Attaching a token to a request. A request that carries authorization already is left alone. -/
namespace TokenKeeper

structure Header where
  name : String
  value : String
  /-- Not to be shown. -/
  sensitive : Bool := false
deriving DecidableEq

namespace Header

def isAuthorization (header : Header) : Bool := header.name.toLower == "authorization"

def scheme : String := "Bearer"

def bearer (token : Option AccessToken) : String :=
  scheme ++ " " ++ (token.map (·.text)).getD ""

def isAllowed (octet : UInt8) : Bool := octet == 0x09 || (0x20 ≤ octet && octet != 0x7f)

def opening : String := "Bearer "

def ofToken (token : AccessToken) : Option Header :=
  let value := opening ++ token.text
  if (Text.Utf8.encode value.toList).all isAllowed then some ⟨"authorization", value, true⟩
  else none

def attach (token : Option AccessToken) (headers : List Header) : List Header × List Notice :=
  match token with
  | none => (headers, [.noTokenAvailable])
  | some token =>
    match ofToken token with
    | some header => (headers ++ [header], [])
    | none => (headers, [.tokenOmitted])

end Header
end TokenKeeper
