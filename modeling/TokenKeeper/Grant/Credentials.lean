import TokenKeeper.Credential
import TokenKeeper.Form
import TokenKeeper.Json.Quoted
import TokenKeeper.Text.Layout
/-! The credentials of a client, and the two ways to send them to an authority. -/
namespace TokenKeeper

structure Credentials where
  clientId : ClientId
  clientSecret : ClientSecret
  /-- Only some authorities ask for one. -/
  audience : Option Audience
deriving DecidableEq

namespace Credentials

def grantType : String := "client_credentials"

def pairs (credentials : Credentials) : List (String × String) :=
  [("grant_type", grantType), ("client_id", credentials.clientId.text),
    ("client_secret", credentials.clientSecret.text)] ++
    (credentials.audience.map fun audience => ("audience", audience.text)).toList

def json (credentials : Credentials) : List Char :=
  Json.object (credentials.pairs.map fun pair => (pair.1, Json.quoted pair.2))

def form (credentials : Credentials) : List Char := Form.encode credentials.pairs

def debug (style : Style) (credentials : Credentials) : List Char :=
  Text.record style.alternate "ClientCredentials"
    [("client_id", credentials.clientId.debug style),
      ("client_secret", credentials.clientSecret.debug style),
      ("audience", Text.optional style.alternate (credentials.audience.map (·.debug style)))] false

end Credentials
end TokenKeeper
