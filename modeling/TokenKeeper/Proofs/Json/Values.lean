import TokenKeeper.Proofs.Json.Meaning
/-! What a token and a lifetime may be written as. A value of any other kind is refused, however it
goes on. -/
namespace TokenKeeper.Json
open Text.Utf8 (encode)

inductive IsText : List UInt8 → Option String → Prop where
  | null : IsText [0x6e, 0x75, 0x6c, 0x6c] none
  | string {pieces : List Piece} {text : String} (h : Piece.Spell pieces text) :
      IsText (Piece.quote pieces) (some text)

def IsNatural (value : List UInt8) (n : UInt64) : Prop :=
  value = encode (Nat.toDigits 10 n.toNat)

section Values
variable {value rest rest' : List UInt8} {item : Item}

theorem IsValue.begins_other (valid : IsValue value) :
    value = [0x6e, 0x75, 0x6c, 0x6c] ∨ (∃ pieces, value = Piece.quote pieces) ∨
      ∃ octet others, value = octet :: others ∧ isBlank octet = false ∧ octet ≠ 0x6e ∧
        octet ≠ 0x22 := by
  cases valid with
  | null => exact .inl rfl
  | string pieces => exact .inr (.inl ⟨pieces, rfl⟩)
  | yes | no => exact .inr (.inr ⟨_, _, rfl, by decide⟩)
  | array | object => exact .inr (.inr ⟨_, _, rfl, by decide⟩)
  | number numeral =>
    obtain ⟨negative, ⟨whole, some_digit, all⟩, alone, fraction, exponent⟩ := numeral
    obtain ⟨d, ds, rfl⟩ := List.exists_cons_of_ne_nil some_digit
    have digits : ∀ d < 10, isBlank (Number.octet d) = false ∧ Number.octet d ≠ 0x6e ∧
      Number.octet d ≠ 0x22 := by decide
    cases negative with
    | true => exact .inr (.inr ⟨_, _, rfl, by decide⟩)
    | false => exact .inr (.inr ⟨Number.octet d, _, rfl, digits d (all d List.mem_cons_self)⟩)

theorem readOptionalString_blanks (blanks : Blanks) (rest : List UInt8) :
    readOptionalString (blanks.1 ++ rest) = readOptionalString rest := by
  simp only [readOptionalString, readString, skipBlanks_blanks]

theorem readOptionalString_quote (pieces : List Piece) (rest : List UInt8) :
    readOptionalString (Piece.quote pieces ++ rest) =
      (Quoted.read (pieces.flatMap Piece.octets ++ 0x22 :: rest)).map
        fun read => (some read.1, read.2) := by
  rw [Piece.quote, List.cons_append, List.append_assoc]
  rfl

theorem readOptionalString_other {octet : UInt8} (blank : isBlank octet = false)
    (null : octet ≠ 0x6e) (string : octet ≠ 0x22) (rest : List UInt8) :
    readOptionalString (octet :: rest) = .error (mismatch (octet :: rest)) := by
  unfold readOptionalString readString
  rw [skipBlanks_cons blank]
  split
  · rename_i same
    exact absurd (List.cons.inj same).1 null
  · split
    · rename_i same
      exact absurd (List.cons.inj same).1 string
    · rfl

theorem readOptionalString_value (valid : IsValue value) {text : Option String} :
    readOptionalString (value ++ rest) = .ok (text, rest') ↔ rest' = rest ∧ IsText value text := by
  rcases valid.begins_other with rfl | ⟨pieces, rfl⟩ | ⟨octet, others, rfl, blank, null, string⟩
  · have read : readOptionalString ([0x6e, 0x75, 0x6c, 0x6c] ++ rest) = .ok (none, rest) := rfl
    rw [read]
    constructor
    · intro same
      obtain ⟨rfl, rfl⟩ := Prod.mk.inj (Except.ok.inj same)
      exact ⟨rfl, .null⟩
    · rintro ⟨rfl, means⟩
      cases means
      rfl
  · rw [readOptionalString_quote]
    constructor
    · intro mapped
      cases read : Quoted.read (pieces.flatMap Piece.octets ++ 0x22 :: rest) with
      | error fault =>
        rw [read] at mapped
        cases mapped
      | ok result =>
        obtain ⟨spelled, left⟩ := result
        obtain ⟨rfl, spell⟩ := (read_pieces pieces rest).mp read
        rw [read] at mapped
        obtain ⟨rfl, rfl⟩ := Prod.mk.inj (Except.ok.inj mapped)
        exact ⟨rfl, .string spell⟩
    · rintro ⟨rfl, means⟩
      generalize written : Piece.quote pieces = value at means
      cases means with
      | null => cases written
      | string spell =>
        rename_i pieces' text
        have read := (read_pieces pieces' rest').mpr ⟨rfl, spell⟩
        have same := (readOptionalString_quote pieces' rest').symm.trans
          ((congrArg (fun v => readOptionalString (v ++ rest')) written.symm).trans
            (readOptionalString_quote pieces rest'))
        rw [← same, read]
        rfl
  · rw [List.cons_append, readOptionalString_other blank null string]
    refine ⟨nofun, fun ⟨_, means⟩ => ?_⟩
    generalize written : octet :: others = value at means
    cases means with
    | null => exact absurd (List.cons.inj written).1 null
    | string => exact absurd (List.cons.inj written).1 string

theorem readOptionalString_item (valid : IsValue item.value) {text : Option String} :
    readOptionalString (item.octets ++ rest) = .ok (text, rest') ↔
      rest' = item.trail.1 ++ rest ∧ IsText item.value text := by
  rw [Item.octets, List.append_assoc, readOptionalString_blanks, List.append_assoc]
  exact readOptionalString_value valid

theorem readNatural_blanks (blanks : Blanks) (rest : List UInt8) :
    readNatural (blanks.1 ++ rest) = readNatural rest := by
  simp only [readNatural, skipBlanks_blanks]

theorem IsValue.begins_number (valid : IsValue value) :
    (∃ numeral : Numeral, value = numeral.octets) ∨
      ∃ octet others, value = octet :: others ∧ isBlank octet = false ∧
        (octet == 0x2d || isDigit octet) = false := by
  cases valid with
  | number numeral => exact .inl ⟨numeral, rfl⟩
  | null | yes | no => exact .inr ⟨_, _, rfl, by decide⟩
  | string => exact .inr ⟨_, _, rfl, by decide⟩
  | array | object => exact .inr ⟨_, _, rfl, by decide⟩

theorem readNatural_numeral {numeral : Numeral} (stops : Stops rest) {n : UInt64}
    (read : readNatural (numeral.octets ++ rest) = .ok (n, rest')) :
    rest' = rest ∧ IsNatural numeral.octets n := by
  obtain ⟨octet, others, begins, blank⟩ : ∃ octet others, numeral.octets = octet :: others ∧
      isBlank octet = false := by
    rcases (IsValue.number numeral).begins_other with h | ⟨pieces, h⟩ | ⟨octet, others, h, blank, -⟩
    · exact ⟨_, _, h, rfl⟩
    · exact ⟨_, _, h, rfl⟩
    · exact ⟨octet, others, h, blank⟩
  have start : skipBlanks (numeral.octets ++ rest) = numeral.octets ++ rest := by
    rw [begins, List.cons_append, skipBlanks_cons blank]
  unfold readNatural at read
  rw [start] at read
  dsimp only at read
  split at read
  · rw [Number.read_numeral numeral stops] at read
    split at read
    · cases read
    · simp only [bind, Except.bind] at read
      split at read
      · rename_i value
        obtain ⟨rfl, rfl⟩ := Prod.mk.inj (Except.ok.inj read)
        exact ⟨rfl, Number.natural?_numeral value⟩
      · cases read
  · cases read

theorem readNatural_value (valid : IsValue value) (stops : Stops rest) {n : UInt64} :
    readNatural (value ++ rest) = .ok (n, rest') ↔ rest' = rest ∧ IsNatural value n := by
  constructor
  · intro read
    rcases valid.begins_number with ⟨numeral, rfl⟩ | ⟨octet, others, rfl, blank, other⟩
    · exact readNatural_numeral stops read
    · unfold readNatural at read
      rw [List.cons_append, skipBlanks_cons blank] at read
      simp only [List.head?_cons, Option.any_some, other, Bool.false_eq_true, if_false] at read
      cases read
  · rintro ⟨rfl, rfl⟩
    obtain ⟨stop, others, rfl, ends⟩ := stops.exists
    exact readNatural_toDigits n ends others

theorem readNatural_item (valid : IsValue item.value) (stops : Stops rest) {n : UInt64} :
    readNatural (item.octets ++ rest) = .ok (n, rest') ↔
      rest' = item.trail.1 ++ rest ∧ IsNatural item.value n := by
  rw [Item.octets, List.append_assoc, readNatural_blanks, List.append_assoc]
  exact readNatural_value valid (stops.blanks item.trail)

end Values
end TokenKeeper.Json
