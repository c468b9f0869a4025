import TokenKeeper.Json.Fault
/-! JSON numbers. Only plain natural numbers of 64 bits have a value here; any other number has to
be well formed and within the range of double precision. -/
namespace TokenKeeper.Json

structure Number where
  negative : Bool
  whole : List Nat
  fraction : Option (List Nat)
  exponent : Option Int
deriving DecidableEq

namespace Number

def ofDigits (digits : List Nat) : Nat := digits.foldl (fun n d => n * 10 + d) 0

def readDigits (octets : List UInt8) : Except Fault (List Nat × List UInt8) :=
  match octets with
  | [] => .error .ended
  | octet :: _ =>
    if isDigit octet then
      .ok ((octets.takeWhile isDigit).map fun d => d.toNat - 0x30, octets.dropWhile isDigit)
    else .error .malformed

/-- A leading zero stands alone. -/
def readWhole (octets : List UInt8) : Except Fault (List Nat × List UInt8) := do
  let (digits, rest) ← readDigits octets
  if digits.head? = some 0 ∧ digits.length ≠ 1 then .error .malformed
  else .ok (digits, rest)

def readFraction (octets : List UInt8) : Except Fault (Option (List Nat) × List UInt8) :=
  match octets with
  | 0x2e :: rest => do
    let (digits, rest) ← readDigits rest
    .ok (some digits, rest)
  | _ => .ok (none, octets)

def readSign (octets : List UInt8) : Int × List UInt8 :=
  match octets with
  | 0x2d :: rest => (-1, rest)
  | 0x2b :: rest => (1, rest)
  | _ => (1, octets)

def readExponent (octets : List UInt8) : Except Fault (Option Int × List UInt8) :=
  match octets with
  | [] => .ok (none, [])
  | octet :: rest =>
    if octet = 0x65 ∨ octet = 0x45 then do
      let (sign, rest) := readSign rest
      let (digits, rest) ← readDigits rest
      .ok (some (sign * ofDigits digits), rest)
    else .ok (none, octets)

def absorb (significand : Nat) : List Nat → Nat × List Nat
  | [] => (significand, [])
  | d :: rest =>
    if significand * 10 + d < Nat.pow 2 64 then absorb (significand * 10 + d) rest
    else (significand, d :: rest)

/-- The nearest number of 53 binary digits, of two the even one. -/
def round53 (n : Nat) : Nat :=
  let unit := Nat.pow 2 (n.log2 - 52)
  let up := 2 * (n % unit) > unit || (2 * (n % unit) == unit && (n / unit) % 2 == 1)
  (n / unit + if up then 1 else 0) * unit

/-- Whether the number lies beyond double precision. The significand and the power of ten are
rounded one by one, and a power beyond the range counts for all but zero. -/
def overflows (number : Number) : Bool :=
  let fraction := number.fraction.getD []
  let (significand, wholeLeft) := absorb 0 number.whole
  let (significand, fractionLeft) := absorb significand fraction
  let power : Int := wholeLeft.length - (fraction.length - fractionLeft.length : Nat) +
    number.exponent.getD 0
  significand != 0 && 0 ≤ power &&
    (power > 308 || round53 significand * round53 (Nat.pow 10 power.toNat) ≥
      Nat.pow 2 1024 - Nat.pow 2 970)

def natural? (number : Number) : Option UInt64 :=
  let n := ofDigits number.whole
  if !number.negative && number.fraction.isNone && number.exponent.isNone && n < Nat.pow 2 64 then
    some (UInt64.ofNat n)
  else none

def read (octets : List UInt8) : Except Fault (Number × List UInt8) := do
  let (negative, rest) := match octets with
    | 0x2d :: rest => (true, rest)
    | _ => (false, octets)
  let (whole, rest) ← readWhole rest
  let (fraction, rest) ← readFraction rest
  let (exponent, rest) ← readExponent rest
  let number := ⟨negative, whole, fraction, exponent⟩
  if number.overflows then .error .malformed else .ok (number, rest)

end Number
end TokenKeeper.Json
