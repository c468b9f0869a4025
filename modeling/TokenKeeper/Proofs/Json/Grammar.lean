import TokenKeeper.Proofs.Json.Number
import TokenKeeper.Proofs.Json.Quoted
/-! The grammar of JSON texts, octet by octet. Strings and numbers are what they are written with;
what they mean is said apart, and a string may have no meaning. -/
namespace TokenKeeper.Json
open Text.Utf8 (encode encodeChar)

abbrev Blanks := { octets : List UInt8 // ∀ octet ∈ octets, isBlank octet = true }

section Strings

abbrev Hex := { octet : UInt8 // (hexValue? octet).isSome = true }

def Hex.value (digit : Hex) : Nat := (hexValue? digit.1).get digit.2

inductive Piece where
  | plain (octet : UInt8) (h : Quoted.isPlain octet = true)
  | short (octet meant : UInt8) (h : Quoted.short? octet = some meant)
  | unit (a b c d : Hex)

namespace Piece

def octets : Piece → List UInt8
  | plain octet _ => [octet]
  | short octet _ _ => [0x5c, octet]
  | unit a b c d => [0x5c, 0x75, a, b, c, d]

def code (a b c d : Hex) : Nat := ((a.value * 16 + b.value) * 16 + c.value) * 16 + d.value

def paired (high low : Nat) : Char :=
  Char.ofNat (0x10000 + (high - 0xd800) * 0x400 + (low - 0xdc00))

/-- The octets that are meant; none if a surrogate stands alone. -/
def meaning : List Piece → Option (List UInt8)
  | [] => some []
  | plain octet _ :: rest => (meaning rest).map ([octet] ++ ·)
  | short _ meant _ :: rest => (meaning rest).map ([meant] ++ ·)
  | unit a b c d :: rest =>
    if Quoted.isLow (code a b c d) then none
    else if Quoted.isHigh (code a b c d) then
      match rest with
      | unit a' b' c' d' :: rest =>
        if Quoted.isLow (code a' b' c' d') then
          (meaning rest).map (encodeChar (paired (code a b c d) (code a' b' c' d')) ++ ·)
        else none
      | _ => none
    else (meaning rest).map (encodeChar (Char.ofNat (code a b c d)) ++ ·)

/-- The pieces are a way to write the text. -/
def Spell (pieces : List Piece) (text : String) : Prop :=
  meaning pieces = some (encode text.toList)

def quote (pieces : List Piece) : List UInt8 := 0x22 :: (pieces.flatMap octets ++ [0x22])

end Piece
end Strings

section Numbers

abbrev Digits := { digits : List Nat // digits ≠ [] ∧ ∀ d ∈ digits, d < 10 }

def Digits.octets (digits : Digits) : List UInt8 := digits.1.map Number.octet

structure Exponent where
  mark : UInt8
  isMark : mark = 0x65 ∨ mark = 0x45
  /-- Whether it is negative, if it has a sign. -/
  sign : Option Bool
  digits : Digits

namespace Exponent

def signOctets : Option Bool → List UInt8
  | none => []
  | some negative => [if negative then 0x2d else 0x2b]

def octets (exponent : Exponent) : List UInt8 :=
  exponent.mark :: (signOctets exponent.sign ++ exponent.digits.octets)

def value (exponent : Exponent) : Int :=
  (if exponent.sign = some true then -1 else 1) * Number.ofDigits exponent.digits.1

end Exponent

structure Numeral where
  negative : Bool
  whole : Digits
  /-- A leading zero stands alone. -/
  alone : whole.1.head? = some 0 → whole.1.length = 1
  fraction : Option Digits
  exponent : Option Exponent

namespace Numeral

def sign (negative : Bool) : List UInt8 := if negative then [0x2d] else []

def octets (numeral : Numeral) : List UInt8 :=
  sign numeral.negative ++ (numeral.whole.octets ++
    ((numeral.fraction.map fun digits => 0x2e :: digits.octets).getD [] ++
      (numeral.exponent.map Exponent.octets).getD []))

def number (numeral : Numeral) : Number :=
  ⟨numeral.negative, numeral.whole.1, numeral.fraction.map (·.1),
    numeral.exponent.map Exponent.value⟩

end Numeral
end Numbers

structure Item where
  lead : Blanks
  value : List UInt8
  trail : Blanks

def Item.octets (item : Item) : List UInt8 := item.lead.1 ++ (item.value ++ item.trail.1)

structure Member where
  lead : Blanks
  name : List Piece
  gap : Blanks
  item : Item

def Member.octets (member : Member) : List UInt8 :=
  member.lead.1 ++ (Piece.quote member.name ++ (member.gap.1 ++ 0x3a :: member.item.octets))

def commas (parts : List (List UInt8)) : List UInt8 := [0x2c].intercalate parts

def arrayText (inner : Blanks) (items : List Item) : List UInt8 :=
  0x5b :: (inner.1 ++ (commas (items.map Item.octets) ++ [0x5d]))

def objectText (inner : Blanks) (members : List Member) : List UInt8 :=
  0x7b :: (inner.1 ++ (commas (members.map Member.octets) ++ [0x7d]))

/-- Any value, of any depth. -/
inductive IsValue : List UInt8 → Prop where
  | null : IsValue [0x6e, 0x75, 0x6c, 0x6c]
  | yes : IsValue [0x74, 0x72, 0x75, 0x65]
  | no : IsValue [0x66, 0x61, 0x6c, 0x73, 0x65]
  | number (numeral : Numeral) : IsValue numeral.octets
  | string (pieces : List Piece) : IsValue (Piece.quote pieces)
  | array (inner : Blanks) {items : List Item} (h : ∀ item ∈ items, IsValue item.value) :
      IsValue (arrayText inner items)
  | object (inner : Blanks) {members : List Member}
      (h : ∀ member ∈ members, IsValue member.item.value) : IsValue (objectText inner members)

section Between
variable {rest : List UInt8}

def behind (close : UInt8) (parts : List (List UInt8)) (rest : List UInt8) : List UInt8 :=
  match parts with
  | [] => close :: rest
  | parts => 0x2c :: (commas parts ++ close :: rest)

theorem commas_behind (part : List UInt8) (parts : List (List UInt8)) (close : UInt8)
    (rest : List UInt8) :
    commas (part :: parts) ++ close :: rest = part ++ behind close parts rest := by
  cases parts with
  | nil => simp [commas, behind]
  | cons next others => simp [commas, behind, List.intercalate]

theorem behind_cons (part : List UInt8) (parts : List (List UInt8)) (close : UInt8)
    (rest : List UInt8) :
    behind close (part :: parts) rest = 0x2c :: (part ++ behind close parts rest) := by
  rw [← commas_behind]
  rfl

/-- What comes next belongs to no number. -/
def Stops (rest : List UInt8) : Prop := rest.head?.any Number.ends = true

theorem blank_ends {octet : UInt8} (blank : isBlank octet = true) :
    Number.ends octet = true := by
  simp only [isBlank, Bool.or_eq_true, beq_iff_eq] at blank
  obtain ((rfl | rfl) | rfl) | rfl := blank <;> decide

theorem stops_cons {stop : UInt8} (h : Number.ends stop = true) : Stops (stop :: rest) := h

theorem stops_behind {close : UInt8} (h : Number.ends close = true) (parts : List (List UInt8))
    (rest : List UInt8) : Stops (behind close parts rest) := by
  cases parts with
  | nil => exact stops_cons h
  | cons => exact stops_cons (by decide)

theorem Stops.blanks (h : Stops rest) (blanks : Blanks) : Stops (blanks.1 ++ rest) := by
  obtain ⟨blanks, all⟩ := blanks
  cases blanks with
  | nil => exact h
  | cons octet others => exact stops_cons (blank_ends (all octet List.mem_cons_self))

theorem Stops.exists (h : Stops rest) :
    ∃ stop others, rest = stop :: others ∧ Number.ends stop = true := by
  cases rest with
  | nil => cases h
  | cons stop others => exact ⟨stop, others, rfl, h⟩

theorem skipBlanks_blanks (blanks : Blanks) (rest : List UInt8) :
    skipBlanks (blanks.1 ++ rest) = skipBlanks rest :=
  List.dropWhile_append_of_pos blanks.2

theorem skipBlanks_cons {octet : UInt8} (h : isBlank octet = false) :
    skipBlanks (octet :: rest) = octet :: rest :=
  List.dropWhile_cons_of_neg (by simp [h])

end Between
end TokenKeeper.Json
