import TokenKeeper.Json.Skip
import TokenKeeper.Proofs.Json.Grammar
/-! Values of any depth are passed over to their ends, and no further: inside a frame reading goes
on after the value, and outside of all frames it stops there. -/
namespace TokenKeeper.Json.Skip
variable {progress next : Progress} {frames : List Frame} {octet : UInt8} {rest : List UInt8}

def after (frames : List Frame) (rest : List UInt8) : Except Fault (List UInt8) :=
  match frames with
  | [] => .ok rest
  | frames => skipFrom .closed frames rest

theorem skipFrom_more {frames' : List Frame}
    (h : step progress frames octet = .ok (.more next frames')) (rest : List UInt8) :
    skipFrom progress frames (octet :: rest) = skipFrom next frames' rest := by
  rw [skipFrom, h]

theorem skipFrom_done {frames' : List Frame} (h : step progress frames octet = .ok (done frames'))
    (rest : List UInt8) : skipFrom progress frames (octet :: rest) = after frames' rest := by
  rw [skipFrom, h]
  cases frames' <;> rfl

theorem skipFrom_blanks
    (h : ∀ octet, isBlank octet = true → step progress frames octet = .ok (.more progress frames))
    (blanks : Blanks) (rest : List UInt8) :
    skipFrom progress frames (blanks.1 ++ rest) = skipFrom progress frames rest := by
  obtain ⟨blanks, all⟩ := blanks
  induction blanks with
  | nil => rfl
  | cons octet blanks ih =>
    rw [List.cons_append, skipFrom_more (h octet (all octet List.mem_cons_self))]
    exact ih fun o member => all o (List.mem_cons_of_mem _ member)

section Blanks
variable (blank : isBlank octet = true)
include blank

theorem value_blank : step .value frames octet = .ok (.more .value frames) := if_pos blank

theorem key_blank : step .key frames octet = .ok (.more .key frames) := if_pos blank

theorem colon_blank : step .colon frames octet = .ok (.more .colon frames) := if_pos blank

theorem closed_blank : step .closed frames octet = .ok (.more .closed frames) := if_pos blank

theorem opened_blank : step .opened frames octet = .ok (.more .opened frames) := if_pos blank

end Blanks

section Strings
variable (isKey : Bool)

theorem skipFrom_hex (digit : Hex) (left : Nat) (rest : List UInt8) :
    skipFrom (.string isKey (.unit (left + 1) true)) frames (digit.1 :: rest) =
      skipFrom (.string isKey (.unit left true)) frames rest := by
  apply skipFrom_more
  simp only [step, string, digit.2, Bool.and_self]

theorem skipFrom_lastHex (digit : Hex) (rest : List UInt8) :
    skipFrom (.string isKey (.unit 0 true)) frames (digit.1 :: rest) =
      skipFrom (.string isKey .plain) frames rest := by
  apply skipFrom_more
  simp only [step, string, digit.2, Bool.and_self, if_true]

theorem short_contains {meant : UInt8} (h : Quoted.short? octet = some meant) :
    octet ≠ 0x75 ∧ [0x22, 0x5c, 0x2f, 0x62, 0x66, 0x6e, 0x72, 0x74].contains octet = true := by
  unfold Quoted.short? at h
  split at h
  all_goals first
    | exact ⟨by decide, by decide⟩
    | cases h

theorem skipFrom_piece (piece : Piece) (rest : List UInt8) :
    skipFrom (.string isKey .plain) frames (piece.octets ++ rest) =
      skipFrom (.string isKey .plain) frames rest := by
  have escaped : step (.string isKey .plain) frames 0x5c =
    .ok (.more (.string isKey .escaped) frames) := rfl
  cases piece with
  | plain octet h =>
    apply skipFrom_more
    simp only [Quoted.isPlain, Bool.and_eq_true, decide_eq_true_eq] at h
    obtain ⟨⟨hlow, hquote⟩, hslash⟩ := h
    simp only [step, string, if_neg hquote, if_neg hslash, if_neg (UInt8.not_lt.mpr hlow)]
  | short octet meant h =>
    obtain ⟨not_unit, known⟩ := short_contains h
    refine (skipFrom_more escaped _).trans (skipFrom_more ?_ rest)
    simp only [step, string, if_neg not_unit, known, if_true]
  | unit a b c d =>
    have begins : step (.string isKey .escaped) frames 0x75 =
      .ok (.more (.string isKey (.unit 3 true)) frames) := rfl
    refine (skipFrom_more escaped _).trans ((skipFrom_more begins _).trans ?_)
    refine (skipFrom_hex isKey a 2 _).trans ((skipFrom_hex isKey b 1 _).trans ?_)
    exact (skipFrom_hex isKey c 0 _).trans (skipFrom_lastHex isKey d rest)

theorem skipFrom_pieces (pieces : List Piece) (rest : List UInt8) :
    skipFrom (.string isKey .plain) frames (pieces.flatMap Piece.octets ++ rest) =
      skipFrom (.string isKey .plain) frames rest := by
  induction pieces with
  | nil => rfl
  | cons piece pieces ih =>
    rw [List.flatMap_cons, List.append_assoc, skipFrom_piece, ih]

theorem skipFrom_string (pieces : List Piece) (rest : List UInt8) :
    skipFrom .value frames (Piece.quote pieces ++ rest) = after frames rest := by
  have opens : step .value frames 0x22 = .ok (.more (.string false .plain) frames) := rfl
  have closes : step (.string false .plain) frames 0x22 = .ok (done frames) := rfl
  rw [Piece.quote, List.cons_append, skipFrom_more opens, List.append_assoc, skipFrom_pieces]
  exact skipFrom_done closes rest

theorem skipFrom_key (pieces : List Piece) (rest : List UInt8) :
    skipFrom .key frames (Piece.quote pieces ++ rest) = skipFrom .colon frames rest := by
  have opens : step .key frames 0x22 = .ok (.more (.string true .plain) frames) := rfl
  have closes : step (.string true .plain) frames 0x22 = .ok (.more .colon frames) := rfl
  rw [Piece.quote, List.cons_append, skipFrom_more opens, List.append_assoc, skipFrom_pieces]
  exact skipFrom_more closes rest

end Strings

section Numbers

theorem skipFrom_digits {digits : Digits}
    (h : ∀ octet, isDigit octet = true → digits.next? octet = some digits) {ds : List Nat}
    (all : ∀ d ∈ ds, d < 10) (rest : List UInt8) :
    skipFrom (.number digits) frames (ds.map Number.octet ++ rest) =
      skipFrom (.number digits) frames rest := by
  induction ds with
  | nil => rfl
  | cons d ds ih =>
    have goes : step (.number digits) frames (Number.octet d) =
        .ok (.more (.number digits) frames) := by
      simp only [step, number, h _ (Number.isDigit_octet (all d List.mem_cons_self))]
    rw [List.map_cons, List.cons_append, skipFrom_more goes]
    exact ih fun d' member => all d' (List.mem_cons_of_mem _ member)

theorem skipFrom_run {digits digits' : Digits}
    (first : ∀ octet, isDigit octet = true → digits.next? octet = some digits')
    (others : ∀ octet, isDigit octet = true → digits'.next? octet = some digits')
    (run : Json.Digits) (rest : List UInt8) :
    skipFrom (.number digits) frames (run.octets ++ rest) =
      skipFrom (.number digits') frames rest := by
  obtain ⟨ds, some_digit, all⟩ := run
  obtain ⟨d, ds, rfl⟩ := List.exists_cons_of_ne_nil some_digit
  have goes : step (.number digits) frames (Number.octet d) =
      .ok (.more (.number digits') frames) := by
    simp only [step, number, first _ (Number.isDigit_octet (all d List.mem_cons_self))]
  unfold Json.Digits.octets
  rw [List.map_cons, List.cons_append, skipFrom_more goes]
  exact skipFrom_digits others (fun d' member => all d' (List.mem_cons_of_mem _ member)) rest

theorem next?_ends {digits : Digits} (complete : digits.complete = true)
    (ends : Number.ends octet = true) : digits.next? octet = none := by
  simp only [Number.ends, Bool.and_eq_true, Bool.not_eq_true', bne_iff_ne] at ends
  obtain ⟨⟨⟨digit, point⟩, e⟩, E⟩ := ends
  have mark : (octet == 0x65 || octet == 0x45) = false := by simp [e, E]
  cases digits <;> simp_all [Digits.next?, Digits.complete]

theorem skipFrom_stop {digits : Digits} (complete : digits.complete = true) (stops : Stops rest) :
    skipFrom (.number digits) frames rest = after frames rest := by
  obtain ⟨stop, others, rfl, ends⟩ := stops.exists
  have no_digit : isDigit stop = false := by
    simp only [Number.ends, Bool.and_eq_true, Bool.not_eq_true'] at ends
    exact ends.1.1.1
  have turn : step (.number digits) frames stop =
      if frames = [] then .ok .before else closed frames stop := by
    simp only [step, number, next?_ends complete ends, complete, no_digit, Bool.not_true,
      Bool.and_false, Bool.or_self, Bool.false_eq_true, if_false]
  cases frames with
  | nil =>
    rw [skipFrom, turn]
    rfl
  | cons frame frames =>
    rw [skipFrom, turn, if_neg (by simp), after, skipFrom]
    · rfl
    · simp

theorem skipFrom_exponent {digits : Digits}
    (h : digits = .zero ∨ digits = .whole ∨ digits = .fraction) (exponent : Option Exponent)
    (stops : Stops rest) :
    skipFrom (.number digits) frames ((exponent.map Exponent.octets).getD [] ++ rest) =
      after frames rest := by
  cases exponent with
  | none =>
    refine skipFrom_stop ?_ stops
    rcases h with rfl | rfl | rfl <;> rfl
  | some exponent =>
    obtain ⟨mark, isMark, sign, run⟩ := exponent
    have marks : step (.number digits) frames mark = .ok (.more (.number .mark) frames) := by
      rcases h with rfl | rfl | rfl <;> rcases isMark with rfl | rfl <;> rfl
    have digit {octet : UInt8} (h : isDigit octet = true) : octet ≠ 0x2b ∧ octet ≠ 0x2d :=
      ⟨(by rintro rfl; cases h), (by rintro rfl; cases h)⟩
    have others (octet : UInt8) (h : isDigit octet = true) :
        Digits.next? .exponent octet = some .exponent := if_pos h
    rw [Option.map_some, Option.getD_some, Exponent.octets, List.cons_append,
      skipFrom_more marks, List.append_assoc]
    cases sign with
    | none =>
      have first (octet : UInt8) (h : isDigit octet = true) :
          Digits.next? .mark octet = some .exponent := by
        simp [Digits.next?, h, digit h]
      exact (skipFrom_run first others run rest).trans (skipFrom_stop rfl stops)
    | some negative =>
      have signs : step (.number .mark) frames (if negative then 0x2d else 0x2b) =
          .ok (.more (.number .markSign) frames) := by cases negative <;> rfl
      have first (octet : UInt8) (h : isDigit octet = true) :
          Digits.next? .markSign octet = some .exponent := if_pos h
      refine (skipFrom_more signs _).trans ?_
      exact (skipFrom_run first others run rest).trans (skipFrom_stop rfl stops)

theorem skipFrom_fraction {digits : Digits} (h : digits = .zero ∨ digits = .whole)
    (fraction : Option Json.Digits) (exponent : Option Exponent) (stops : Stops rest) :
    skipFrom (.number digits) frames
      ((fraction.map fun run => 0x2e :: run.octets).getD [] ++
        ((exponent.map Exponent.octets).getD [] ++ rest)) = after frames rest := by
  cases fraction with
  | none => exact skipFrom_exponent (by rcases h with rfl | rfl <;> simp) exponent stops
  | some run =>
    have points : step (.number digits) frames 0x2e = .ok (.more (.number .point) frames) := by
      rcases h with rfl | rfl <;> rfl
    have first (octet : UInt8) (h : isDigit octet = true) :
        Digits.next? .point octet = some .fraction := if_pos h
    have others (octet : UInt8) (h : isDigit octet = true) :
        Digits.next? .fraction octet = some .fraction := if_pos h
    rw [Option.map_some, Option.getD_some, List.cons_append, skipFrom_more points,
      skipFrom_run first others]
    exact skipFrom_exponent (by simp) exponent stops

theorem step_digit {d : Nat} (h : d < 10) (frames : List Frame) :
    step .value frames (Number.octet d) =
        .ok (.more (.number (if d = 0 then .zero else .whole)) frames) ∧
      step (.number .sign) frames (Number.octet d) =
        .ok (.more (.number (if d = 0 then .zero else .whole)) frames) := by
  have others : ∀ d < 10, isBlank (Number.octet d) = false ∧ Number.octet d ≠ 0x22 ∧
      Number.octet d ≠ 0x5b ∧ Number.octet d ≠ 0x7b ∧ Number.octet d ≠ 0x2d ∧
      (Number.octet d = 0x30 ↔ d = 0) := by decide
  obtain ⟨blank, quote, bracket, brace, minus, zero⟩ := others d h
  have digit := Number.isDigit_octet h
  constructor
  · simp only [step, value, blank, quote, bracket, brace, minus, zero, digit, Bool.false_eq_true,
      if_false, if_true]
    split <;> rfl
  · simp only [step, number, Digits.next?, zero, digit, if_true]
    by_cases leading : d = 0 <;> simp only [leading, if_true, if_false]

theorem skipFrom_whole (numeral : Numeral) (stops : Stops rest)
    (h : progress = .value ∨ progress = .number .sign) :
    skipFrom progress frames (numeral.whole.octets ++
      ((numeral.fraction.map fun run => 0x2e :: run.octets).getD [] ++
        ((numeral.exponent.map Exponent.octets).getD [] ++ rest))) = after frames rest := by
  obtain ⟨-, ⟨whole, some_digit, all⟩, alone, fraction, exponent⟩ := numeral
  obtain ⟨d, ds, rfl⟩ := List.exists_cons_of_ne_nil some_digit
  have first : step progress frames (Number.octet d) =
      .ok (.more (.number (if d = 0 then .zero else .whole)) frames) := by
    obtain ⟨one, other⟩ := step_digit (all d List.mem_cons_self) frames
    rcases h with rfl | rfl
    · exact one
    · exact other
  dsimp only [Json.Digits.octets]
  rw [List.map_cons, List.cons_append, skipFrom_more first]
  split
  · rename_i zero
    subst zero
    obtain rfl : ds = [] := by simpa using alone rfl
    exact skipFrom_fraction (.inl rfl) fraction exponent stops
  · have goes (octet : UInt8) (h : isDigit octet = true) :
        Digits.next? .whole octet = some .whole := if_pos h
    rw [skipFrom_digits goes fun d' member => all d' (List.mem_cons_of_mem _ member)]
    exact skipFrom_fraction (.inr rfl) fraction exponent stops

theorem skipFrom_numeral (numeral : Numeral) (stops : Stops rest) :
    skipFrom .value frames (numeral.octets ++ rest) = after frames rest := by
  simp only [Numeral.octets, List.append_assoc]
  cases negative : numeral.negative with
  | false => exact skipFrom_whole numeral stops (.inl rfl)
  | true =>
    have minus : step .value frames 0x2d = .ok (.more (.number .sign) frames) := rfl
    exact (skipFrom_more minus _).trans (skipFrom_whole numeral stops (.inr rfl))

end Numbers

section Brackets

def Passes (value : List UInt8) : Prop :=
  ∀ (frames : List Frame) (rest : List UInt8), Stops rest →
    skipFrom .value frames (value ++ rest) = after frames rest

theorem begins {value : List UInt8} (h : IsValue value) :
    ∃ octet others, value = octet :: others ∧ isBlank octet = false ∧ octet ≠ 0x5d := by
  cases h with
  | null | yes | no => exact ⟨_, _, rfl, rfl, by decide⟩
  | string pieces => exact ⟨_, _, rfl, rfl, by decide⟩
  | array | object => exact ⟨_, _, rfl, rfl, by decide⟩
  | number numeral =>
    obtain ⟨negative, ⟨whole, some_digit, all⟩, alone, fraction, exponent⟩ := numeral
    obtain ⟨d, ds, rfl⟩ := List.exists_cons_of_ne_nil some_digit
    cases negative with
    | true => exact ⟨_, _, rfl, rfl, by decide⟩
    | false =>
      have digits : ∀ d < 10, isBlank (Number.octet d) = false ∧ Number.octet d ≠ 0x5d := by decide
      exact ⟨Number.octet d, _, rfl, digits d (all d List.mem_cons_self)⟩

variable {frame : Frame}

theorem skipFrom_item {item : Item} (passes : Passes item.value) (stops : Stops rest) :
    skipFrom .value (frame :: frames) (item.octets ++ rest) =
      skipFrom .closed (frame :: frames) rest := by
  rw [Item.octets, List.append_assoc, skipFrom_blanks (fun _ => value_blank), List.append_assoc,
    passes _ _ (stops.blanks item.trail)]
  exact skipFrom_blanks (fun _ => closed_blank) item.trail rest

theorem skipFrom_comma (rest : List UInt8) : skipFrom .closed (frame :: frames) (0x2c :: rest) =
    skipFrom (start (frame :: frames)) (frame :: frames) rest := skipFrom_more rfl rest

theorem skipFrom_items {item : Item} {items : List Item}
    (passes : ∀ i ∈ item :: items, Passes i.value) (rest : List UInt8) :
    skipFrom .value (.array :: frames)
      (item.octets ++ behind 0x5d (items.map Item.octets) rest) = after frames rest := by
  induction items generalizing item with
  | nil =>
    rw [skipFrom_item (passes item List.mem_cons_self) (stops_behind (by decide) _ _)]
    exact skipFrom_done rfl rest
  | cons next items ih =>
    rw [skipFrom_item (passes item List.mem_cons_self) (stops_behind (by decide) _ _),
      List.map_cons, behind_cons, skipFrom_comma]
    exact ih fun i member => passes i (List.mem_cons_of_mem _ member)

theorem skipFrom_member {member : Member} (passes : Passes member.item.value)
    (stops : Stops rest) :
    skipFrom .key (frame :: frames) (member.octets ++ rest) =
      skipFrom .closed (frame :: frames) rest := by
  have colon : step .colon (frame :: frames) 0x3a = .ok (.more .value (frame :: frames)) := rfl
  rw [Member.octets, List.append_assoc, skipFrom_blanks (fun _ => key_blank), List.append_assoc,
    skipFrom_key, List.append_assoc, skipFrom_blanks (fun _ => colon_blank), List.cons_append,
    skipFrom_more colon, skipFrom_item passes stops]

theorem skipFrom_members {member : Member} {members : List Member}
    (passes : ∀ m ∈ member :: members, Passes m.item.value) (rest : List UInt8) :
    skipFrom .key (.object :: frames)
      (member.octets ++ behind 0x7d (members.map Member.octets) rest) = after frames rest := by
  induction members generalizing member with
  | nil =>
    rw [skipFrom_member (passes member List.mem_cons_self) (stops_behind (by decide) _ _)]
    exact skipFrom_done rfl rest
  | cons next members ih =>
    rw [skipFrom_member (passes member List.mem_cons_self) (stops_behind (by decide) _ _),
      List.map_cons, behind_cons, skipFrom_comma]
    exact ih fun m member => passes m (List.mem_cons_of_mem _ member)

/-- The first item of an array does not end it. -/
theorem skipFrom_opened_item {item : Item} (valid : IsValue item.value) (rest : List UInt8) :
    skipFrom .opened (.array :: frames) (item.octets ++ rest) =
      skipFrom .value (.array :: frames) (item.octets ++ rest) := by
  obtain ⟨octet, others, value, blank, bracket⟩ := begins valid
  rw [Item.octets, List.append_assoc, skipFrom_blanks (fun _ => opened_blank),
    skipFrom_blanks (fun _ => value_blank), value, List.append_assoc, List.cons_append, skipFrom,
    skipFrom]
  simp only [step, opened, blank, bracket, Bool.false_eq_true, if_false]

theorem skipFrom_opened_member (member : Member) (rest : List UInt8) :
    skipFrom .opened (.object :: frames) (member.octets ++ rest) =
      skipFrom .key (.object :: frames) (member.octets ++ rest) := by
  rw [Member.octets, List.append_assoc, skipFrom_blanks (fun _ => opened_blank),
    skipFrom_blanks (fun _ => key_blank)]
  rfl

theorem skipFrom_array (inner : Blanks) {items : List Item}
    (valid : ∀ item ∈ items, IsValue item.value) (passes : ∀ item ∈ items, Passes item.value) :
    Passes (arrayText inner items) := by
  intro frames rest _
  have opens : step .value frames 0x5b = .ok (.more .opened (.array :: frames)) := rfl
  rw [arrayText, List.cons_append, skipFrom_more opens, List.append_assoc,
    skipFrom_blanks (fun _ => opened_blank), List.append_assoc]
  cases items with
  | nil => exact skipFrom_done rfl rest
  | cons item items =>
    rw [List.singleton_append, List.map_cons, commas_behind,
      skipFrom_opened_item (valid item List.mem_cons_self)]
    exact skipFrom_items passes rest

theorem skipFrom_object (inner : Blanks) {members : List Member}
    (passes : ∀ member ∈ members, Passes member.item.value) :
    Passes (objectText inner members) := by
  intro frames rest _
  have opens : step .value frames 0x7b = .ok (.more .opened (.object :: frames)) := rfl
  rw [objectText, List.cons_append, skipFrom_more opens, List.append_assoc,
    skipFrom_blanks (fun _ => opened_blank), List.append_assoc]
  cases members with
  | nil => exact skipFrom_done rfl rest
  | cons member members =>
    rw [List.singleton_append, List.map_cons, commas_behind, skipFrom_opened_member]
    exact skipFrom_members passes rest

end Brackets

/-- Reading passes over any value and nothing after it. -/
theorem skipFrom_value {value : List UInt8} (h : IsValue value) : Passes value := by
  induction h with
  | null | yes | no =>
    intro frames rest _
    cases frames <;> rfl
  | number numeral => exact fun frames rest stops => skipFrom_numeral numeral stops
  | string pieces => exact fun frames rest _ => skipFrom_string pieces rest
  | array inner valid passes => exact skipFrom_array inner valid passes
  | object inner valid passes => exact skipFrom_object inner passes

theorem skip_item {item : Item} (valid : IsValue item.value) (stops : Stops rest) :
    skip (item.octets ++ rest) = .ok (item.trail.1 ++ rest) := by
  rw [skip, Item.octets, List.append_assoc, skipFrom_blanks (fun _ => value_blank),
    List.append_assoc, skipFrom_value valid _ _ (stops.blanks item.trail)]
  rfl

end TokenKeeper.Json.Skip
