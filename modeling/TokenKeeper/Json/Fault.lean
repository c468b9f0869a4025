/-! What a reader of JSON text can find wrong, and the blanks it passes over. -/
namespace TokenKeeper.Json

inductive Fault where
  /-- No JSON text begins like this. -/
  | malformed
  /-- Right so far, but of the wrong kind or repeated. -/
  | mismatch
  /-- The text ends too early. -/
  | ended
deriving DecidableEq

def isBlank (octet : UInt8) : Bool :=
  octet == 0x20 || octet == 0x0a || octet == 0x09 || octet == 0x0d

def skipBlanks (octets : List UInt8) : List UInt8 := octets.dropWhile isBlank

def isDigit (octet : UInt8) : Bool := 0x30 ≤ octet && octet ≤ 0x39

def hexValue? (octet : UInt8) : Option Nat :=
  let n := octet.toNat
  if 0x30 ≤ n ∧ n ≤ 0x39 then some (n - 0x30)
  else if 0x41 ≤ n ∧ n ≤ 0x46 then some (n - 0x37)
  else if 0x61 ≤ n ∧ n ≤ 0x66 then some (n - 0x57)
  else none

def word : List UInt8 → List UInt8 → Except Fault (List UInt8)
  | [], rest => .ok rest
  | _ :: _, [] => .error .ended
  | w :: ws, octet :: rest => if octet = w then word ws rest else .error .malformed

def finish (value : α) (rest : List UInt8) : Except Fault α :=
  if skipBlanks rest = [] then .ok value else .error .malformed

end TokenKeeper.Json
