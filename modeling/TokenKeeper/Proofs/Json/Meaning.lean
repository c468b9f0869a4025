import Mathlib.Data.List.Induction
import TokenKeeper.Proofs.Json.Grammar
import TokenKeeper.Proofs.Text.Decoded
/-! What strings and numbers are read as. A string is read if its pieces mean the octets of a text,
and a number as it is written unless it lies beyond double precision. -/
namespace TokenKeeper.Json
open Text.Utf8 (encode encodeChar)

namespace Quoted
variable {done rest : List UInt8}

def resume (turn : Except Fault (List UInt8 × Progress)) (done rest : List UInt8) :
    Except Fault (String × List UInt8) :=
  match turn with
  | .error fault => .error fault
  | .ok (octets, progress) => readFrom progress (octets.reverse ++ done) rest

section Units
variable (high : Option Nat) (value : Nat)

theorem readFrom_hex (digit : Hex) (left : Nat) (done rest : List UInt8) :
    readFrom (.unit high (left + 1) value true) done (digit.1 :: rest) =
      readFrom (.unit high left (value * 16 + digit.value) true) done rest := by
  have known : hexValue? digit.1 = some digit.value := (Option.some_get digit.2).symm
  have goes : step (.unit high (left + 1) value true) digit.1 =
      .ok ([], .unit high left (value * 16 + digit.value) true) := by
    simp only [step, known, Option.getD_some, Option.isSome_some, Bool.and_self]
  exact readFrom_step (.inl (by simp)) goes done rest

theorem readFrom_lastHex (digit : Hex) (done rest : List UInt8) :
    readFrom (.unit high 0 value true) done (digit.1 :: rest) =
      resume (complete high (value * 16 + digit.value)) done rest := by
  have known : hexValue? digit.1 = some digit.value := (Option.some_get digit.2).symm
  rw [readFrom, if_neg (by simp)]
  simp only [step, known, Option.getD_some, Option.isSome_some, Bool.and_self, if_true]
  rfl

theorem readFrom_code (a b c d : Hex) (done rest : List UInt8) :
    readFrom (.unit high 3 0 true) done (a.1 :: b.1 :: c.1 :: d.1 :: rest) =
      resume (complete high (Piece.code a b c d)) done rest := by
  rw [readFrom_hex, readFrom_hex, readFrom_hex, readFrom_lastHex, Nat.zero_mul, Nat.zero_add]
  rfl

end Units

theorem readFrom_unit_piece (a b c d : Hex) (done rest : List UInt8) :
    readFrom .plain done ((Piece.unit a b c d).octets ++ rest) =
      resume (complete none (Piece.code a b c d)) done rest :=
  readFrom_code none a b c d done rest

theorem readFrom_pairing_unit (high : Nat) (a b c d : Hex) (done rest : List UInt8) :
    readFrom (.pairing high) done ((Piece.unit a b c d).octets ++ rest) =
      resume (complete (some high) (Piece.code a b c d)) done rest :=
  readFrom_code (some high) a b c d done rest

theorem readFrom_pairing_other (high : Nat) {pieces : List Piece}
    (h : ∀ a b c d others, pieces ≠ Piece.unit a b c d :: others) (done rest : List UInt8) :
    readFrom (.pairing high) done (pieces.flatMap Piece.octets ++ 0x22 :: rest) =
      .error .malformed := by
  have broken {octet : UInt8} (other : octet ≠ 0x5c) (rest : List UInt8) :
      readFrom (.pairing high) done (octet :: rest) = .error .malformed := by
    rw [readFrom, if_neg (by simp)]
    simp only [step, if_neg other]
  cases pieces with
  | nil => exact broken (by decide) rest
  | cons piece pieces =>
    cases piece with
    | plain octet plain =>
      simp only [isPlain, Bool.and_eq_true, decide_eq_true_eq] at plain
      exact broken plain.2 _
    | short octet meant short =>
      have other : octet ≠ 0x75 := by rintro rfl; cases short
      have escaped : step (.pairing high) 0x5c = .ok ([], .pairingEscaped high) := rfl
      rw [List.flatMap_cons, Piece.octets, List.append_assoc, List.cons_append,
        readFrom_step (.inl (by simp)) escaped, List.cons_append, readFrom, if_neg (by simp)]
      simp only [step, if_neg other]
    | unit a b c d => exact absurd rfl (h a b c d pieces)

def told (done : List UInt8) (meant : Option (List UInt8)) (rest : List UInt8) :
    Except Fault (String × List UInt8) :=
  match meant.bind fun octets => Text.Utf8.decode (done.reverse ++ octets) with
  | some text => .ok (String.ofList text, rest)
  | none => .error .malformed

theorem told_map (octets : List UInt8) (meant : Option (List UInt8)) :
    told done (meant.map (octets ++ ·)) rest = told (octets.reverse ++ done) meant rest := by
  unfold told
  cases meant <;> simp

theorem readFrom_pieces (pieces : List Piece) (done rest : List UInt8) :
    readFrom .plain done (pieces.flatMap Piece.octets ++ 0x22 :: rest) =
      told done (Piece.meaning pieces) rest := by
  fun_induction Piece.meaning pieces generalizing done with
  | case1 =>
    have octets : (some []).bind (fun octets => Text.Utf8.decode (done.reverse ++ octets)) =
        Text.Utf8.decode done.reverse := by
      rw [Option.bind_some, List.append_nil]
    rw [List.flatMap_nil, List.nil_append, readFrom, if_pos ⟨rfl, rfl⟩]
    unfold told
    cases decoded : Text.Utf8.decode done.reverse <;> simp only [octets, decoded]
  | case2 octet plain pieces ih =>
    rw [List.flatMap_cons, List.append_assoc, told_map, ← ih]
    exact readFrom_plain (by simpa [Piece.octets] using plain) done _
  | case3 octet meant short pieces ih =>
    have escaped : step .plain 0x5c = .ok ([], .escaped) := rfl
    have means : step .escaped octet = .ok ([meant], .plain) := by
      have other : octet ≠ 0x75 := by rintro rfl; cases short
      simp only [step, if_neg other, short]
    rw [List.flatMap_cons, List.append_assoc, told_map, ← ih]
    exact (readFrom_step (.inr (by decide)) escaped done _).trans
      (readFrom_step (.inl (by simp)) means done _)
  | case4 a b c d pieces low =>
    rw [List.flatMap_cons, List.append_assoc, readFrom_unit_piece]
    simp only [complete, low, if_true, resume, told, Option.bind_none]
  | case5 a b c d low high a' b' c' d' pieces low' ih =>
    have first : complete none (Piece.code a b c d) = .ok ([], .pairing (Piece.code a b c d)) := by
      simp only [complete, low, high, Bool.false_eq_true, if_false, if_true]
    have second : complete (some (Piece.code a b c d)) (Piece.code a' b' c' d') =
        .ok (encodeChar (Piece.paired (Piece.code a b c d) (Piece.code a' b' c' d')), .plain) := by
      simp only [complete, low', if_true, Piece.paired]
    rw [List.flatMap_cons, List.flatMap_cons, List.append_assoc, List.append_assoc,
      readFrom_unit_piece, first, resume, List.reverse_nil, List.nil_append,
      readFrom_pairing_unit, second, resume, told_map, ih]
  | case6 a b c d low high a' b' c' d' pieces low' =>
    have first : complete none (Piece.code a b c d) = .ok ([], .pairing (Piece.code a b c d)) := by
      simp only [complete, low, high, Bool.false_eq_true, if_false, if_true]
    rw [List.flatMap_cons, List.flatMap_cons, List.append_assoc, List.append_assoc,
      readFrom_unit_piece, first, resume, List.reverse_nil, List.nil_append,
      readFrom_pairing_unit]
    simp only [complete, low', Bool.false_eq_true, if_false, resume, told, Option.bind_none]
  | case7 a b c d pieces low high other =>
    have first : complete none (Piece.code a b c d) = .ok ([], .pairing (Piece.code a b c d)) := by
      simp only [complete, low, high, Bool.false_eq_true, if_false, if_true]
    rw [List.flatMap_cons, List.append_assoc, readFrom_unit_piece, first, resume,
      List.reverse_nil, List.nil_append, readFrom_pairing_other _ other]
    rfl
  | case8 a b c d pieces low high ih =>
    rw [List.flatMap_cons, List.append_assoc, readFrom_unit_piece, told_map, ← ih]
    simp only [complete, low, high, Bool.false_eq_true, if_false, resume]

end Quoted

/-- Strings are read just as the texts that they spell. -/
theorem read_pieces (pieces : List Piece) (rest : List UInt8) {text : String}
    {rest' : List UInt8} :
    Quoted.read (pieces.flatMap Piece.octets ++ 0x22 :: rest) = .ok (text, rest') ↔
      rest' = rest ∧ Piece.Spell pieces text := by
  rw [Quoted.read, Quoted.readFrom_pieces, Quoted.told, Piece.Spell]
  simp only [List.reverse_nil, List.nil_append]
  cases meant : Piece.meaning pieces with
  | none => simp
  | some octets =>
    rw [Option.bind_some]
    cases decoded : Text.Utf8.decode octets with
    | none =>
      constructor
      · intro read
        cases read
      · rintro ⟨-, same⟩
        rw [Option.some.inj same, Text.Utf8.decode_encode] at decoded
        cases decoded
    | some chars =>
      rw [Text.Utf8.decode_eq_some_iff] at decoded
      subst decoded
      constructor
      · intro read
        obtain ⟨rfl, rfl⟩ := Prod.mk.inj (Except.ok.inj read)
        exact ⟨rfl, by rw [String.toList_ofList]⟩
      · rintro ⟨rfl, same⟩
        have decoded := congrArg Text.Utf8.decode (Option.some.inj same)
        rw [Text.Utf8.decode_encode, Text.Utf8.decode_encode] at decoded
        simp only [Option.some.inj decoded, String.ofList_toList]

namespace Number
variable {rest : List UInt8}

def NoDigit (rest : List UInt8) : Prop := rest.head?.any isDigit = false

theorem readDigits_run (run : Digits) (h : NoDigit rest) :
    readDigits (run.octets ++ rest) = .ok (run.1, rest) := by
  obtain ⟨ds, some_digit, all⟩ := run
  have digits : ∀ o ∈ ds.map octet, isDigit o = true := by
    intro o member
    obtain ⟨d, hd, rfl⟩ := List.mem_map.mp member
    exact isDigit_octet (all d hd)
  have stops : rest.takeWhile isDigit = [] ∧ rest.dropWhile isDigit = rest := by
    cases rest with
    | nil => exact ⟨rfl, rfl⟩
    | cons o others =>
      have h : isDigit o = false := h
      exact ⟨List.takeWhile_cons_of_neg (by simp [h]), List.dropWhile_cons_of_neg (by simp [h])⟩
  have back : (ds.map octet).map (fun o => o.toNat - 0x30) = ds := by
    rw [List.map_map]
    refine (List.map_congr_left fun d hd => ?_).trans (List.map_id _)
    rw [Function.comp_apply, toNat_octet (all d hd), Nat.add_sub_cancel_left, id]
  have take : (ds.map octet ++ rest).takeWhile isDigit = ds.map octet := by
    rw [List.takeWhile_append_of_pos digits, stops.1, List.append_nil]
  have drop : (ds.map octet ++ rest).dropWhile isDigit = rest := by
    rw [List.dropWhile_append_of_pos digits, stops.2]
  obtain ⟨d, others, rfl⟩ := List.exists_cons_of_ne_nil some_digit
  have first := isDigit_octet (all d List.mem_cons_self)
  dsimp only [Digits.octets]
  rw [List.map_cons, List.cons_append] at take drop ⊢
  rw [readDigits, if_pos first, take, drop, ← List.map_cons, back]

theorem readWhole_run (run : Digits) (alone : run.1.head? = some 0 → run.1.length = 1)
    (h : NoDigit rest) : readWhole (run.octets ++ rest) = .ok (run.1, rest) := by
  rw [readWhole, readDigits_run run h]
  exact if_neg fun leading => leading.2 (alone leading.1)

theorem noDigit_of_stops (h : Stops rest) : NoDigit rest := by
  obtain ⟨stop, others, rfl, stopping⟩ := h.exists
  simp only [ends, Bool.and_eq_true, Bool.not_eq_true'] at stopping
  exact stopping.1.1.1

theorem exponent_head (exponent : Option Exponent) (stops : Stops rest) :
    ∃ first others, (exponent.map Exponent.octets).getD [] ++ rest = first :: others ∧
      isDigit first = false ∧ first ≠ 0x2e := by
  cases exponent with
  | none =>
    obtain ⟨stop, others, rfl, stopping⟩ := stops.exists
    simp only [ends, Bool.and_eq_true, Bool.not_eq_true', bne_iff_ne] at stopping
    exact ⟨stop, others, rfl, stopping.1.1⟩
  | some exponent =>
    obtain ⟨mark, isMark, sign, run⟩ := exponent
    refine ⟨mark, _, rfl, ?_⟩
    rcases isMark with rfl | rfl <;> decide

theorem readSign_sign (sign : Option Bool) (run : Digits) (rest : List UInt8) :
    readSign (Exponent.signOctets sign ++ (run.octets ++ rest)) =
      (if sign = some true then -1 else 1, run.octets ++ rest) := by
  cases sign with
  | some negative => cases negative <;> rfl
  | none =>
    obtain ⟨ds, some_digit, all⟩ := run
    obtain ⟨d, others, rfl⟩ := List.exists_cons_of_ne_nil some_digit
    have unsigned : ∀ d < 10, octet d ≠ 0x2d ∧ octet d ≠ 0x2b := by decide
    obtain ⟨minus, plus⟩ := unsigned d (all d List.mem_cons_self)
    unfold Exponent.signOctets Digits.octets readSign
    rw [List.nil_append, List.map_cons, List.cons_append]
    split
    · rename_i same
      exact absurd (List.cons.inj same).1 minus
    · rename_i same
      exact absurd (List.cons.inj same).1 plus
    · rfl

theorem readExponent_exponent (exponent : Option Exponent) (stops : Stops rest) :
    readExponent ((exponent.map Exponent.octets).getD [] ++ rest) =
      .ok (exponent.map Exponent.value, rest) := by
  cases exponent with
  | none =>
    obtain ⟨stop, others, rfl, stopping⟩ := stops.exists
    exact readExponent_stop stopping others
  | some exponent =>
    obtain ⟨mark, isMark, sign, run⟩ := exponent
    have digits := readDigits_run run (noDigit_of_stops stops)
    rw [Option.map_some, Option.getD_some, Exponent.octets, List.cons_append, List.append_assoc,
      readExponent, if_pos isMark, readSign_sign]
    simp only [digits, bind, Except.bind]
    rfl

theorem readFraction_fraction (fraction : Option Digits) (exponent : Option Exponent)
    (stops : Stops rest) :
    readFraction ((fraction.map fun run => 0x2e :: run.octets).getD [] ++
        ((exponent.map Exponent.octets).getD [] ++ rest)) =
      .ok (fraction.map (·.1), (exponent.map Exponent.octets).getD [] ++ rest) := by
  obtain ⟨first, others, head, digit, point⟩ := exponent_head exponent stops
  rw [head]
  cases fraction with
  | none =>
    rw [Option.map_none, Option.getD_none, List.nil_append]
    unfold readFraction
    split
    · rename_i same
      exact absurd (List.cons.inj same).1 point
    · rfl
  | some run =>
    have digits : readDigits (run.octets ++ first :: others) = .ok (run.1, first :: others) :=
      readDigits_run run digit
    rw [Option.map_some, Option.getD_some, List.cons_append, readFraction]
    simp only [digits, bind, Except.bind]
    rfl

theorem fraction_noDigit (fraction : Option Digits) (exponent : Option Exponent)
    (stops : Stops rest) :
    NoDigit ((fraction.map fun run => 0x2e :: run.octets).getD [] ++
      ((exponent.map Exponent.octets).getD [] ++ rest)) := by
  cases fraction with
  | some run => rfl
  | none =>
    obtain ⟨first, others, head, digit, -⟩ := exponent_head exponent stops
    rw [head]
    exact digit

theorem read_sign (negative : Bool) {octets : List UInt8}
    (unsigned : octets.head? ≠ some 0x2d) :
    read (Numeral.sign negative ++ octets) = (do
      let (whole, rest) ← readWhole octets
      let (fraction, rest) ← readFraction rest
      let (exponent, rest) ← readExponent rest
      let number := ⟨negative, whole, fraction, exponent⟩
      if number.overflows then .error .malformed else .ok (number, rest)) := by
  cases negative with
  | true => rfl
  | false =>
    have plain : Numeral.sign false ++ octets = octets := rfl
    rw [plain]
    unfold read
    split
    rename_i negative rest signs
    split at signs
    · exact absurd rfl unsigned
    · obtain ⟨rfl, rfl⟩ := Prod.mk.inj signs
      rfl

theorem read_numeral (numeral : Numeral) (stops : Stops rest) :
    read (numeral.octets ++ rest) =
      if numeral.number.overflows then .error .malformed else .ok (numeral.number, rest) := by
  obtain ⟨negative, ⟨whole, some_digit, all⟩, alone, fraction, exponent⟩ := numeral
  have wholes := readWhole_run ⟨whole, some_digit, all⟩ alone
    (fraction_noDigit fraction exponent stops)
  have fractions := readFraction_fraction fraction exponent stops
  have exponents := readExponent_exponent exponent stops
  have unsigned : ∀ d < 10, octet d ≠ 0x2d := by decide
  unfold Numeral.octets
  rw [List.append_assoc, List.append_assoc, List.append_assoc, read_sign]
  · simp only [wholes, fractions, exponents, bind, Except.bind, Numeral.number]
    rfl
  · obtain ⟨d, others, rfl⟩ := List.exists_cons_of_ne_nil some_digit
    exact fun same => unsigned d (all d List.mem_cons_self) (Option.some.inj same)

section Naturals

theorem ofDigits_concat (ds : List Nat) (d : Nat) :
    ofDigits (ds ++ [d]) = ofDigits ds * 10 + d := by
  rw [ofDigits, List.foldl_append]
  rfl

theorem ofDigits_pos {d : Nat} (h : d ≠ 0) (ds : List Nat) : 0 < ofDigits (d :: ds) := by
  have least := le_foldl ds (0 * 10 + d)
  rw [ofDigits, List.foldl_cons]
  omega

theorem digits_ofDigits {ds : List Nat} (some_digit : ds ≠ []) (all : ∀ d ∈ ds, d < 10)
    (alone : ds.head? = some 0 → ds.length = 1) : digits (ofDigits ds) = ds := by
  induction ds using List.reverseRecOn with
  | nil => exact absurd rfl some_digit
  | append_singleton init last ih =>
    have small : last < 10 := all last (by simp)
    rw [ofDigits_concat]
    cases init with
    | nil =>
      have zero : ofDigits [] = 0 := rfl
      rw [zero, Nat.zero_mul, Nat.zero_add, digits_of_lt small, List.nil_append]
    | cons d init =>
      have leading : d ≠ 0 := fun zero => by
        have one := alone (by rw [zero]; rfl)
        simp at one
      have positive := ofDigits_pos leading init
      have before := ih (by simp) (fun d' member => all d' (List.mem_append_left _ member))
        (fun zero => absurd (Option.some.inj zero) leading)
      rw [digits_of_le (by omega), show (ofDigits (d :: init) * 10 + last) / 10 =
        ofDigits (d :: init) by omega, before,
        show (ofDigits (d :: init) * 10 + last) % 10 = last by omega]

theorem natural?_numeral {numeral : Numeral} {n : UInt64}
    (h : numeral.number.natural? = some n) :
    numeral.octets = encode (Nat.toDigits 10 n.toNat) := by
  obtain ⟨negative, ⟨whole, some_digit, all⟩, alone, fraction, exponent⟩ := numeral
  unfold natural? Numeral.number at h
  dsimp only at h
  split at h
  · rename_i plain
    simp only [Bool.and_eq_true, Bool.not_eq_true', Option.isNone_iff_eq_none,
      Option.map_eq_none_iff, decide_eq_true_eq] at plain
    obtain ⟨⟨⟨rfl, rfl⟩, rfl⟩, small⟩ := plain
    obtain rfl := Option.some.inj h
    have same : (UInt64.ofNat (ofDigits whole)).toNat = ofDigits whole :=
      UInt64.toNat_ofNat_of_lt' small
    rw [encode_toDigits, same, digits_ofDigits some_digit all alone]
    exact List.append_nil _
  · cases h

end Naturals
end Number

end TokenKeeper.Json
