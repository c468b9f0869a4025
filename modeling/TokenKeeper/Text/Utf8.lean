/-! UTF-8, one octet at a time. What no character begins with, and the longest part of a broken
character, each count as one fault. -/
namespace TokenKeeper.Text.Utf8

def trail (n : Nat) : UInt8 := UInt8.ofNat (0x80 + n % 64)

def encodeChar (c : Char) : List UInt8 :=
  let n := c.toNat
  if n < 0x80 then [UInt8.ofNat n]
  else if n < 0x800 then [UInt8.ofNat (0xc0 + n / 64), trail n]
  else if n < 0x10000 then [UInt8.ofNat (0xe0 + n / 4096), trail (n / 64), trail n]
  else [UInt8.ofNat (0xf0 + n / 262144), trail (n / 4096), trail (n / 64), trail n]

def encode (text : List Char) : List UInt8 := text.flatMap encodeChar

/-- Where a decoder stands between two octets: inside a character, the next octet is bounded and
`more` others follow it. -/
inductive Progress where
  | between
  | inside (more low high value : Nat)
deriving DecidableEq

/-- The first octet of a character. The bounds of the second rule out overlong forms, surrogates
and what lies beyond the last code point. -/
def first (octet : UInt8) : List (Option Char) × Progress :=
  let n := octet.toNat
  if n < 0x80 then ([some (Char.ofNat n)], .between)
  else if n < 0xc2 then ([none], .between)
  else if n < 0xe0 then ([], .inside 0 0x80 0xbf (n - 0xc0))
  else if n < 0xf0 then
    ([], .inside 1 (if n = 0xe0 then 0xa0 else 0x80) (if n = 0xed then 0x9f else 0xbf) (n - 0xe0))
  else if n < 0xf5 then
    ([], .inside 2 (if n = 0xf0 then 0x90 else 0x80) (if n = 0xf4 then 0x8f else 0xbf) (n - 0xf0))
  else ([none], .between)

def step : Progress → UInt8 → List (Option Char) × Progress
  | .between, octet => first octet
  | .inside more low high value, octet =>
    if low ≤ octet.toNat ∧ octet.toNat ≤ high then
      let value := value * 64 + (octet.toNat - 0x80)
      match more with
      | 0 => ([some (Char.ofNat value)], .between)
      | more+1 => ([], .inside more 0x80 0xbf value)
    else (none :: (first octet).1, (first octet).2)

def scanFrom : Progress → List UInt8 → List (Option Char)
  | .between, [] => []
  | .inside .., [] => [none]
  | progress, octet :: rest => (step progress octet).1 ++ scanFrom (step progress octet).2 rest

def scan (octets : List UInt8) : List (Option Char) := scanFrom .between octets

def decode (octets : List UInt8) : Option (List Char) :=
  if (scan octets).all Option.isSome then some ((scan octets).filterMap id) else none

def decodeLossy (octets : List UInt8) : List Char := (scan octets).map fun c => c.getD '\ufffd'

def isBoundary (octets : List UInt8) (index : Nat) : Bool :=
  if index = 0 ∨ index = octets.length then true
  else octets[index]?.any fun octet => octet < 0x80 || 0xc0 ≤ octet

def before? (index : Nat) (octets : List UInt8) : Option (List Char) :=
  if isBoundary octets index then decode (octets.take index) else none

end TokenKeeper.Text.Utf8
