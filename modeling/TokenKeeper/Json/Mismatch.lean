import TokenKeeper.Json.Number
import TokenKeeper.Json.Quoted
/-! What is wrong with a value where another kind is expected. Its first token is read, so a broken
one is found out. -/
namespace TokenKeeper.Json

/-- The fault of a token that is right in itself is that it stands here. -/
def outOfPlace (token : Except Fault α) : Fault :=
  match token with
  | .ok _ => .mismatch
  | .error fault => fault

def mismatch (octets : List UInt8) : Fault :=
  match octets with
  | [] => .ended
  | octet :: rest =>
    if octet = 0x6e then outOfPlace (word [0x75, 0x6c, 0x6c] rest)
    else if octet = 0x74 then outOfPlace (word [0x72, 0x75, 0x65] rest)
    else if octet = 0x66 then outOfPlace (word [0x61, 0x6c, 0x73, 0x65] rest)
    else if octet = 0x2d ∨ isDigit octet then outOfPlace (Number.read octets)
    else if octet = 0x22 then outOfPlace (Quoted.read rest)
    else if octet = 0x5b ∨ octet = 0x7b then .mismatch
    else .malformed

def readString (octets : List UInt8) : Except Fault (String × List UInt8) :=
  match skipBlanks octets with
  | 0x22 :: rest => Quoted.read rest
  | rest => .error (mismatch rest)

def readOptionalString (octets : List UInt8) : Except Fault (Option String × List UInt8) :=
  match skipBlanks octets with
  | 0x6e :: rest => do
    let rest ← word [0x75, 0x6c, 0x6c] rest
    .ok (none, rest)
  | _ => do
    let (text, rest) ← readString octets
    .ok (some text, rest)

def readNatural (octets : List UInt8) : Except Fault (UInt64 × List UInt8) := do
  let start := skipBlanks octets
  if start.head?.any fun octet => octet == 0x2d || isDigit octet then
    let (number, rest) ← Number.read start
    match number.natural? with
    | some n => .ok (n, rest)
    | none => .error .mismatch
  else .error (mismatch start)

def stringOf (octets : List UInt8) : Except Fault String := do
  let (text, rest) ← readString octets
  finish text rest

end TokenKeeper.Json
