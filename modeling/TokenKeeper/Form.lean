import TokenKeeper.Text.Utf8
/-! Form data: names and values as `application/x-www-form-urlencoded` text. -/
namespace TokenKeeper.Form

def isPlain (octet : UInt8) : Bool :=
  let c := Char.ofNat octet.toNat
  c.isAlphanum || c == '*' || c == '-' || c == '.' || c == '_'

def hexDigit (n : Nat) : Char := (Nat.digitChar n).toUpper

def encodeOctet (octet : UInt8) : List Char :=
  if isPlain octet then [Char.ofNat octet.toNat]
  else if octet = 0x20 then ['+']
  else ['%', hexDigit (octet.toNat / 16), hexDigit (octet.toNat % 16)]

def encodeText (text : String) : List Char := (Text.Utf8.encode text.toList).flatMap encodeOctet

def encodePair (pair : String × String) : List Char :=
  encodeText pair.1 ++ '=' :: encodeText pair.2

def encode (pairs : List (String × String)) : List Char := ['&'].intercalate (pairs.map encodePair)

end TokenKeeper.Form
