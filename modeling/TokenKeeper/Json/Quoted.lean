import TokenKeeper.Json.Fault
import TokenKeeper.Text.Utf8
/-! JSON strings. Writing escapes quotes, backslashes and controls only; reading takes every escape
and insists on well-formed text. -/
namespace TokenKeeper.Json

def escape (c : Char) : List Char :=
  match c with
  | '"' => ['\\', '"']
  | '\\' => ['\\', '\\']
  | '\x08' => ['\\', 'b']
  | '\x0c' => ['\\', 'f']
  | '\n' => ['\\', 'n']
  | '\r' => ['\\', 'r']
  | '\t' => ['\\', 't']
  | _ =>
    if c.toNat < 0x20 then
      ['\\', 'u', '0', '0', Nat.digitChar (c.toNat / 16), Nat.digitChar (c.toNat % 16)]
    else [c]

def quoted (text : String) : List Char := '"' :: text.toList.flatMap escape ++ ['"']

def object (members : List (String × List Char)) : List Char :=
  '\x7b' :: [','].intercalate (members.map fun m => quoted m.1 ++ ':' :: m.2) ++ ['\x7d']

namespace Quoted

/-- Where a reader stands between two octets of a string. A code unit is read as four digits, of
which `left` follow the next one; `high` is the surrogate it has to complete. -/
inductive Progress where
  | plain
  | escaped
  | unit (high : Option Nat) (left value : Nat) (digits : Bool)
  | pairing (high : Nat)
  | pairingEscaped (high : Nat)
deriving DecidableEq

def short? (octet : UInt8) : Option UInt8 :=
  match octet with
  | 0x22 => some 0x22
  | 0x5c => some 0x5c
  | 0x2f => some 0x2f
  | 0x62 => some 0x08
  | 0x66 => some 0x0c
  | 0x6e => some 0x0a
  | 0x72 => some 0x0d
  | 0x74 => some 0x09
  | _ => none

def isHigh (unit : Nat) : Bool := 0xd800 ≤ unit && unit < 0xdc00

def isLow (unit : Nat) : Bool := 0xdc00 ≤ unit && unit < 0xe000

/-- A low surrogate completes a high one and stands nowhere else. -/
def complete (high : Option Nat) (unit : Nat) : Except Fault (List UInt8 × Progress) :=
  match high with
  | none =>
    if isLow unit then .error .malformed
    else if isHigh unit then .ok ([], .pairing unit)
    else .ok (Text.Utf8.encodeChar (Char.ofNat unit), .plain)
  | some high =>
    if isLow unit then
      .ok (Text.Utf8.encodeChar (Char.ofNat (0x10000 + (high - 0xd800) * 0x400 + (unit - 0xdc00))),
        .plain)
    else .error .malformed

def step : Progress → UInt8 → Except Fault (List UInt8 × Progress)
  | .plain, octet =>
    if octet = 0x5c then .ok ([], .escaped)
    else if octet < 0x20 then .error .malformed
    else .ok ([octet], .plain)
  | .escaped, octet =>
    if octet = 0x75 then .ok ([], .unit none 3 0 true)
    else match short? octet with
      | some meant => .ok ([meant], .plain)
      | none => .error .malformed
  | .unit high left value digits, octet =>
    let value := value * 16 + (hexValue? octet).getD 0
    let digits := digits && (hexValue? octet).isSome
    match left with
    | left+1 => .ok ([], .unit high left value digits)
    | 0 => if digits then complete high value else .error .malformed
  | .pairing high, octet =>
    if octet = 0x5c then .ok ([], .pairingEscaped high) else .error .malformed
  | .pairingEscaped high, octet =>
    if octet = 0x75 then .ok ([], .unit (some high) 3 0 true) else .error .malformed

def readFrom (progress : Progress) (done : List UInt8) :
    List UInt8 → Except Fault (String × List UInt8)
  | [] => .error .ended
  | octet :: rest =>
    if progress = .plain ∧ octet = 0x22 then
      match Text.Utf8.decode done.reverse with
      | some text => .ok (String.ofList text, rest)
      | none => .error .malformed
    else match step progress octet with
      | .error fault => .error fault
      | .ok (octets, progress) => readFrom progress (octets.reverse ++ done) rest

def read (octets : List UInt8) : Except Fault (String × List UInt8) := readFrom .plain [] octets

end Quoted
end TokenKeeper.Json
