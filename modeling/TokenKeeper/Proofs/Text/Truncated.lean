import TokenKeeper.Credential
import TokenKeeper.Proofs.Text.Utf8
/-! A text is cut between two of its characters, however many octets each takes, so the cut can be
made; what is left is counted in characters. -/
namespace TokenKeeper.Text

namespace Utf8

theorem encodeChar_eq_cons (c : Char) :
    ∃ octet rest, encodeChar c = octet :: rest ∧ (octet < 0x80 || 0xc0 ≤ octet) = true := by
  have hrange := toNat_range c
  have below {n : Nat} (h : n < 0x80) : (UInt8.ofNat n < 0x80 || 0xc0 ≤ UInt8.ofNat n) = true := by
    simp only [UInt8.lt_iff_toNat_lt, toNat_octet (show n < 256 by omega), UInt8.reduceToNat, h,
      decide_true, Bool.true_or]
  have above {n : Nat} (h : 0xc0 ≤ n ∧ n < 256) :
      (UInt8.ofNat n < 0x80 || 0xc0 ≤ UInt8.ofNat n) = true := by
    simp only [UInt8.le_iff_toNat_le, toNat_octet h.2, UInt8.reduceToNat, h.1, decide_true,
      Bool.or_true]
  unfold encodeChar
  generalize c.toNat = n at hrange
  simp only
  split
  next h => exact ⟨_, _, rfl, below h⟩
  split
  next h => exact ⟨_, _, rfl, above (by omega)⟩
  split
  next h => exact ⟨_, _, rfl, above (by omega)⟩
  next h => exact ⟨_, _, rfl, above (by omega)⟩

theorem isBoundary_encode (before after : List Char) :
    isBoundary (encode (before ++ after)) (encode before).length = true := by
  cases after with
  | nil => simp [isBoundary]
  | cons c after =>
    obtain ⟨octet, rest, starts, begins⟩ := encodeChar_eq_cons c
    have found : (encode (before ++ c :: after))[(encode before).length]? = some octet := by
      rw [encode_append, encode_cons, starts, List.cons_append,
        List.getElem?_append_right (Nat.le_refl _), Nat.sub_self, List.getElem?_cons_zero]
    rw [isBoundary, found]
    split
    · rfl
    · exact begins

theorem take_encode (before after : List Char) :
    (encode (before ++ after)).take (encode before).length = encode before := by
  rw [encode_append, List.take_left]

theorem before?_encode (before after : List Char) :
    before? (encode before).length (encode (before ++ after)) = some before := by
  rw [before?, if_pos (isBoundary_encode before after), take_encode, decode_encode]

end Utf8

open Utf8

theorem getElem?_startsFrom (start index : Nat) (text : List Char) (h : index < text.length) :
    (startsFrom start text)[index]? = some (start + (encode (text.take index)).length) := by
  induction text generalizing start index with
  | nil => exact absurd h (Nat.not_lt_zero _)
  | cons c text ih =>
    cases index with
    | zero => rfl
    | succ index =>
      rw [startsFrom, List.getElem?_cons_succ, ih _ _ (Nat.lt_of_succ_lt_succ h),
        List.take_succ_cons, encode_cons, List.length_append, Nat.add_assoc]

section Budget
variable {budget : Nat} {text : List Char}

theorem cut_eq (h : budget < text.length) :
    cut budget text = (encode (text.take (budget - 1))).length := by
  rw [cut, getElem?_startsFrom _ _ _ (by omega), Option.getD_some, Nat.zero_add]

theorem isBoundary_cut (h : budget < text.length) :
    isBoundary (encode text) (cut budget text) = true := by
  have bound := isBoundary_encode (text.take (budget - 1)) (text.drop (budget - 1))
  rwa [List.take_append_drop, ← cut_eq h] at bound

theorem take_cut (h : budget < text.length) :
    (encode text).take (cut budget text) = encode (text.take (budget - 1)) := by
  have taken := take_encode (text.take (budget - 1)) (text.drop (budget - 1))
  rwa [List.take_append_drop, ← cut_eq h] at taken

theorem truncate?_of_le (h : text.length ≤ budget) : truncate? budget text = some text := by
  rw [truncate?, List.getElem?_eq_none h]

theorem truncate?_of_lt (h : budget < text.length) :
    truncate? budget text = some (text.take (budget - 1) ++ ['…']) := by
  have sliced := before?_encode (text.take (budget - 1)) (text.drop (budget - 1))
  rw [List.take_append_drop, ← cut_eq h] at sliced
  rw [truncate?, List.getElem?_eq_getElem h]
  simp only [sliced, Option.map_some]

variable (budget text)

theorem truncate?_eq_some : truncate? budget text = some (truncate budget text) := by
  rw [truncate]
  obtain within | beyond := Nat.lt_or_ge budget text.length
  · rw [truncate?_of_lt within, Option.getD_some]
  · rw [truncate?_of_le beyond, Option.getD_some]

/-- The cut told in characters alone. -/
theorem truncate_eq :
    truncate budget text =
      if text.length ≤ budget then text else text.take (budget - 1) ++ ['…'] := by
  rw [truncate]
  split
  next h => rw [truncate?_of_le h, Option.getD_some]
  next h => rw [truncate?_of_lt (Nat.lt_of_not_le h), Option.getD_some]

theorem length_truncate : (truncate budget text).length ≤ max budget 1 := by
  rw [truncate_eq]
  split
  · omega
  · rw [List.length_append, List.length_take, List.length_singleton]
    omega

/-- What the budget left already fits, unless no budget leaves the ellipsis alone. -/
theorem truncate_truncate : truncate budget (truncate budget text) = truncate budget text := by
  obtain rfl | positive := Nat.eq_zero_or_pos budget
  · cases text <;> rfl
  · have short : (truncate budget text).length ≤ budget := by
      have bound := length_truncate budget text
      omega
    rw [truncate_eq budget (truncate budget text), if_pos short]

end Budget

/-- Within the budget a text is written as it is. A longer one is cut where a character begins, and
what stands before is its first characters, one fewer than the budget counts, or none. Whatever the
budget and the characters, there is such a place; what is written keeps to the budget, and stays as
it is when cut again. Secrets in the alternate style are written so, with the width as the
budget. -/
theorem truncation_keeps_to_budget :
    (∀ (budget : Nat) (text : List Char),
      (text.length ≤ budget → truncate? budget text = some text) ∧
      (budget < text.length →
        isBoundary (encode text) (cut budget text) = true ∧
        ∃ kept, kept <+: text ∧ kept = text.take (budget - 1) ∧
          (encode text).take (cut budget text) = encode kept ∧
          truncate? budget text = some (kept ++ ['…'])) ∧
      ∃ written, truncate? budget text = some written ∧ written.length ≤ max budget 1 ∧
        truncate? budget written = some written) ∧
    ∀ {kind : Credential.Kind} (c : Credential kind) (r : Redaction) (style : Style),
      kind.redaction = some r → style.alternate = true →
        truncate? (style.columns.getD Credential.unlimited) c.chars = some (c.display style) ∧
        ∃ written, truncate? (style.columns.getD r.budget) c.chars = some written ∧
          c.debug style = '"' :: written ++ ['"'] := by
  refine ⟨fun budget text => ⟨truncate?_of_le, fun long => ?_, ?_⟩, ?_⟩
  · exact ⟨isBoundary_cut long, _, List.take_prefix _ _, rfl, take_cut long, truncate?_of_lt long⟩
  · refine ⟨truncate budget text, truncate?_eq_some _ _, length_truncate _ _, ?_⟩
    rw [truncate?_eq_some, truncate_truncate]
  · intro kind c r style secret alternate
    simp only [Credential.display, Credential.debug, secret, alternate, if_true]
    exact ⟨truncate?_eq_some _ _, _, truncate?_eq_some _ _, rfl⟩

/-- A text of characters of one to four octets, cut behind the second, and a secret of that text. -/
theorem truncation_keeps_to_budget_mixed :
    ['a', 'é'] <+: ['a', 'é', '€', '😀'] ∧
    isBoundary (encode ['a', 'é', '€', '😀']) 3 = true ∧
    truncate? 3 ['a', 'é', '€', '😀'] = some ['a', 'é', '…'] ∧
    truncate? 4 ['a', 'é', '€', '😀'] = some ['a', 'é', '€', '😀'] ∧
    (⟨"aé€😀😀"⟩ : ClientSecret).display { alternate := true } = "aé€😀😀".toList ∧
    (⟨"aé€😀😀"⟩ : ClientSecret).debug { alternate := true, width := some 3 } =
      ['"', 'a', 'é', '…', '"'] := by
  obtain ⟨cutAt, kept, leading, first, -, cutText⟩ :=
    (truncation_keeps_to_budget.1 3 ['a', 'é', '€', '😀']).2.1 (by decide)
  subst first
  have whole := (truncation_keeps_to_budget.1 4 ['a', 'é', '€', '😀']).1 (by decide)
  have shown := (truncation_keeps_to_budget.2 (⟨"aé€😀😀"⟩ : ClientSecret) _ { alternate := true } rfl
    rfl).1
  obtain ⟨written, is, debugged⟩ := (truncation_keeps_to_budget.2 (⟨"aé€😀😀"⟩ : ClientSecret) _
    { alternate := true, width := some 3 } rfl rfl).2
  refine ⟨leading, cutAt, cutText, whole, ?_, ?_⟩
  · exact Option.some.inj (shown.symm.trans (by decide +kernel))
  · rw [debugged, Option.some.inj (is.symm.trans (show _ = some ['a', 'é', '…'] by decide +kernel))]
    rfl

end TokenKeeper.Text
