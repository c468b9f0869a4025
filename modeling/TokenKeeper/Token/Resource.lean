import TokenKeeper.Credential
import TokenKeeper.Json.Mismatch
import TokenKeeper.Json.Skip
import TokenKeeper.Text.Layout
/-! What an issuer answers: perhaps a token, and how many seconds it lives. -/
namespace TokenKeeper

structure Resource where
  token : Option AccessToken := none
  lifetime : UInt64 := 0
deriving DecidableEq

namespace Resource

def usable (resource : Resource) : Option AccessToken :=
  resource.token.filter fun token => token.text ≠ ""

/-- A missing token is left out, an empty one is not. -/
def json (resource : Resource) : List Char :=
  Json.object <|
    (resource.token.map fun token => ("access_token", Json.quoted token.text)).toList ++
      [("expires_in", Nat.toDigits 10 resource.lifetime.toNat)]

def lifetimeText (style : Style) (lifetime : UInt64) : List Char :=
  Text.padStart (style.columns.getD 0) (Nat.toDigits 10 lifetime.toNat)

def debug (style : Style) (resource : Resource) : List Char :=
  Text.record style.alternate "TokenResource"
    [("access_token", Text.optional style.alternate (resource.token.map (·.debug style))),
      ("lifetime_secs", lifetimeText style resource.lifetime)] false

structure Members where
  token : Option (Option String) := none
  lifetime : Option UInt64 := none
deriving DecidableEq

def Members.resource (members : Members) : Resource :=
  ⟨members.token.join.map Credential.mk, members.lifetime.getD 0⟩

open Json in
def readColon (octets : List UInt8) : Except Fault (List UInt8) :=
  match skipBlanks octets with
  | [] => .error .ended
  | octet :: rest => if octet = 0x3a then .ok rest else .error .malformed

open Json in
/-- Reads on after the opening quote of a name. A known name must not come again; the value of any
other is passed over. -/
def readMember (members : Members) (octets : List UInt8) :
    Except Fault (Members × List UInt8) := do
  let (name, rest) ← Quoted.read octets
  if name = "access_token" then
    if members.token.isSome then .error .mismatch else
      let rest ← readColon rest
      let (token, rest) ← readOptionalString rest
      .ok (⟨some token, members.lifetime⟩, rest)
  else if name = "expires_in" then
    if members.lifetime.isSome then .error .mismatch else
      let rest ← readColon rest
      let (lifetime, rest) ← readNatural rest
      .ok (⟨members.token, some lifetime⟩, rest)
  else
    let rest ← readColon rest
    let rest ← Skip.skip rest
    .ok (members, rest)

open Json in
/-- Reads members, the first one from after the opening quote of its name. Each takes up at least
one octet, so their number bounds the fuel. -/
def readMembers (fuel : Nat) (members : Members) (octets : List UInt8) :
    Except Fault (Members × List UInt8) :=
  match fuel with
  | 0 => .error .ended
  | fuel+1 => do
    let (members, rest) ← readMember members octets
    match skipBlanks rest with
    | [] => .error .ended
    | octet :: rest =>
      if octet = 0x7d then .ok (members, rest)
      else if octet = 0x2c then
        match skipBlanks rest with
        | [] => .error .ended
        | octet :: rest =>
          if octet = 0x22 then readMembers fuel members rest else .error .malformed
      else .error .malformed

open Json in
def readObject (octets : List UInt8) : Except Fault (Members × List UInt8) :=
  match skipBlanks octets with
  | [] => .error .ended
  | octet :: rest =>
    if octet = 0x7d then .ok (⟨none, none⟩, rest)
    else if octet = 0x22 then readMembers (rest.length + 1) ⟨none, none⟩ rest
    else .error .malformed

open Json in
def readComma (octets : List UInt8) : Except Fault (Option (List UInt8) × List UInt8) :=
  match skipBlanks octets with
  | [] => .error .ended
  | octet :: rest =>
    if octet = 0x5d then .ok (none, rest)
    else if octet = 0x2c then
      match skipBlanks rest with
      | [] => .error .ended
      | octet :: _ => if octet = 0x5d then .error .malformed else .ok (some rest, rest)
    else .error .malformed

open Json in
def readArray (octets : List UInt8) : Except Fault (Members × List UInt8) :=
  match skipBlanks octets with
  | [] => .error .ended
  | octet :: rest =>
    if octet = 0x5d then .ok (⟨none, none⟩, rest)
    else do
      let (token, rest) ← readOptionalString octets
      let (more, rest) ← readComma rest
      match more with
      | none => .ok (⟨some token, none⟩, rest)
      | some rest =>
        let (lifetime, rest) ← readNatural rest
        match skipBlanks rest with
        | [] => .error .ended
        | octet :: rest =>
          if octet = 0x5d then .ok (⟨some token, some lifetime⟩, rest) else .error .malformed

open Json in
/-- Reads a whole text: an object with the known members in any order, or an array of them. The
first fault from the left wins. -/
def ofJson (octets : List UInt8) : Except Fault Resource := do
  let start := skipBlanks octets
  let (members, rest) ← match start with
    | 0x7b :: rest => readObject rest
    | 0x5b :: rest => readArray rest
    | _ => .error (mismatch start)
  finish members.resource rest

end Resource
end TokenKeeper
