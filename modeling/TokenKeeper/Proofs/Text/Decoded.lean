import Mathlib.Order.Basic
import TokenKeeper.Proofs.Text.Utf8
/-! Octets in which a decoder finds no fault are those of the text they decode to, and of no other:
each rule for a first octet leaves just the octets that some character is written as. -/
namespace TokenKeeper.Text.Utf8

theorem toNat_ofNat_valid {n : Nat} (h : n.isValidChar) : (Char.ofNat n).toNat = n := by
  rw [Char.ofNat, dif_pos h]
  rfl

theorem octet_eq {octet : UInt8} {n : Nat} (h : octet.toNat = n) : UInt8.ofNat n = octet := by
  rw [← h, UInt8.ofNat_toNat]

theorem inside_trail {more low high value : Nat} {octets : List UInt8}
    (clean : none ∉ scanFrom (.inside more low high value) octets) (hlow : 0x80 ≤ low)
    (hhigh : high ≤ 0xbf) :
    ∃ n rest, octets = trail n :: rest ∧ n < 64 ∧ low ≤ 0x80 + n % 64 ∧ 0x80 + n % 64 ≤ high := by
  cases octets with
  | nil => simp [scanFrom] at clean
  | cons octet rest =>
    by_cases within : low ≤ octet.toNat ∧ octet.toNat ≤ high
    · have same : trail (octet.toNat - 0x80) = octet := octet_eq (by omega)
      exact ⟨octet.toNat - 0x80, rest, by rw [same], by omega, by omega, by omega⟩
    · rw [scanFrom_cons, step, if_neg within] at clean
      simp at clean

section Characters
variable {octet : UInt8} {rest : List UInt8}

theorem front_of_two {n : Nat} (first : octet.toNat = 0xc0 + n) (hn : 2 ≤ n ∧ n < 0x20)
    (clean : none ∉ scanFrom (.inside 0 0x80 0xbf n) rest) :
    ∃ c others, octet :: rest = encodeChar c ++ others ∧ none ∉ scanFrom .between others := by
  obtain ⟨m, others, rfl, hm, hlow, hhigh⟩ := inside_trail clean (Nat.le_refl _) (Nat.le_refl _)
  rw [scanFrom_last _ _ _ hlow hhigh] at clean
  have value : (Char.ofNat (n * 64 + m)).toNat = n * 64 + m := toNat_ofNat_valid (.inl (by omega))
  refine ⟨Char.ofNat (n * 64 + m), others, ?_, fun h => clean (List.mem_cons_of_mem _ h)⟩
  have lead : UInt8.ofNat (0xc0 + (n * 64 + m) / 64) = octet := octet_eq (by omega)
  have last : trail (n * 64 + m) = trail m := by rw [trail, trail]; congr 2; omega
  simp only [encodeChar, value, show ¬n * 64 + m < 0x80 by omega,
    show n * 64 + m < 0x800 by omega, if_true, if_false, lead, last, List.cons_append,
    List.nil_append]

theorem front_of_three {n : Nat} (first : octet.toNat = 0xe0 + n) (hn : n < 0x10)
    (clean : none ∉ scanFrom (.inside 1 (if n = 0 then 0xa0 else 0x80)
      (if n = 13 then 0x9f else 0xbf) n) rest) :
    ∃ c others, octet :: rest = encodeChar c ++ others ∧ none ∉ scanFrom .between others := by
  obtain ⟨m, others, rfl, hm, hlow, hhigh⟩ :=
    inside_trail clean (by split <;> omega) (by split <;> omega)
  rw [scanFrom_more _ _ _ _ hlow hhigh] at clean
  obtain ⟨k, others, rfl, hk, hlow', hhigh'⟩ := inside_trail clean (Nat.le_refl _) (Nat.le_refl _)
  rw [scanFrom_last _ _ _ hlow' hhigh'] at clean
  generalize hv : (n * 64 + m) * 64 + k = v
  have range : 0x800 ≤ v ∧ v < 0x10000 ∧ (v < 0xd800 ∨ 0xdfff < v) := by
    split at hlow <;> split at hhigh <;> omega
  have value : (Char.ofNat v).toNat = v :=
    toNat_ofNat_valid (range.2.2.imp id fun above => ⟨above, by omega⟩)
  refine ⟨Char.ofNat v, others, ?_, fun h => clean (List.mem_cons_of_mem _ h)⟩
  have lead : UInt8.ofNat (0xe0 + v / 4096) = octet := octet_eq (by omega)
  have middle : trail (v / 64) = trail m := by rw [trail, trail]; congr 2; omega
  have last : trail v = trail k := by rw [trail, trail]; congr 2; omega
  simp only [encodeChar, value, show ¬v < 0x80 by omega, show ¬v < 0x800 by omega,
    show v < 0x10000 by omega, if_true, if_false, lead, middle, last, List.cons_append,
    List.nil_append]

theorem front_of_four {n : Nat} (first : octet.toNat = 0xf0 + n) (hn : n < 5)
    (clean : none ∉ scanFrom (.inside 2 (if n = 0 then 0x90 else 0x80)
      (if n = 4 then 0x8f else 0xbf) n) rest) :
    ∃ c others, octet :: rest = encodeChar c ++ others ∧ none ∉ scanFrom .between others := by
  obtain ⟨m, others, rfl, hm, hlow, hhigh⟩ :=
    inside_trail clean (by split <;> omega) (by split <;> omega)
  rw [scanFrom_more _ _ _ _ hlow hhigh] at clean
  obtain ⟨k, others, rfl, hk, hlow', hhigh'⟩ := inside_trail clean (Nat.le_refl _) (Nat.le_refl _)
  rw [scanFrom_more _ _ _ _ hlow' hhigh'] at clean
  obtain ⟨j, others, rfl, hj, hlow'', hhigh''⟩ := inside_trail clean (Nat.le_refl _) (Nat.le_refl _)
  rw [scanFrom_last _ _ _ hlow'' hhigh''] at clean
  generalize hv : ((n * 64 + m) * 64 + k) * 64 + j = v
  have range : 0x10000 ≤ v ∧ v < 0x110000 := by
    split at hlow <;> split at hhigh <;> omega
  have value : (Char.ofNat v).toNat = v :=
    toNat_ofNat_valid (.inr ⟨by omega, range.2⟩)
  refine ⟨Char.ofNat v, others, ?_, fun h => clean (List.mem_cons_of_mem _ h)⟩
  have lead : UInt8.ofNat (0xf0 + v / 262144) = octet := octet_eq (by omega)
  have second : trail (v / 4096) = trail m := by rw [trail, trail]; congr 2; omega
  have third : trail (v / 64) = trail k := by rw [trail, trail]; congr 2; omega
  have last : trail v = trail j := by rw [trail, trail]; congr 2; omega
  simp only [encodeChar, value, show ¬v < 0x80 by omega, show ¬v < 0x800 by omega,
    show ¬v < 0x10000 by omega, if_false, lead, second, third, last, List.cons_append,
    List.nil_append]

/-- One character after the other is taken off. -/
theorem front (clean : none ∉ scanFrom .between (octet :: rest)) :
    ∃ c others, octet :: rest = encodeChar c ++ others ∧ none ∉ scanFrom .between others := by
  rw [scanFrom_cons, step] at clean
  have bound : octet.toNat < 256 := octet.toNat_lt
  unfold first at clean
  dsimp only at clean
  split at clean
  · rename_i ascii
    have value := toNat_ofNat ascii
    refine ⟨Char.ofNat octet.toNat, rest, ?_, fun h => clean (List.mem_append_right _ h)⟩
    rw [encodeChar_ascii (value.trans_lt ascii), value, UInt8.ofNat_toNat, List.singleton_append]
  split at clean
  · simp at clean
  split at clean
  · exact front_of_two (n := octet.toNat - 0xc0) (by omega) (by omega) clean
  split at clean
  · have low : octet.toNat = 0xe0 ↔ octet.toNat - 0xe0 = 0 := by omega
    have high : octet.toNat = 0xed ↔ octet.toNat - 0xe0 = 13 := by omega
    simp only [low, high, List.nil_append] at clean
    exact front_of_three (by omega) (by omega) clean
  split at clean
  · have low : octet.toNat = 0xf0 ↔ octet.toNat - 0xf0 = 0 := by omega
    have high : octet.toNat = 0xf4 ↔ octet.toNat - 0xf0 = 4 := by omega
    simp only [low, high, List.nil_append] at clean
    exact front_of_four (by omega) (by omega) clean
  · simp at clean

end Characters

theorem exists_text {octets : List UInt8} (clean : none ∉ scan octets) :
    ∃ text, octets = encode text := by
  induction length : octets.length using Nat.strongRecOn generalizing octets with
  | _ n ih =>
    cases octets with
    | nil => exact ⟨[], rfl⟩
    | cons octet rest =>
      obtain ⟨c, others, taken, clean⟩ := front clean
      have shorter : others.length < n := by
        have all := congrArg List.length taken
        have some_octet : encodeChar c ≠ [] := by
          unfold encodeChar
          dsimp only
          split_ifs <;> simp
        have := List.length_pos_iff.mpr some_octet
        rw [List.length_append] at all
        omega
      obtain ⟨text, rfl⟩ := ih _ shorter clean rfl
      exact ⟨c :: text, taken⟩

theorem decode_eq_some_iff {octets : List UInt8} {text : List Char} :
    decode octets = some text ↔ octets = encode text := by
  refine ⟨fun decoded => ?_, fun same => same ▸ decode_encode text⟩
  unfold decode at decoded
  split at decoded
  · rename_i clean
    have clean : none ∉ scan octets := fun fault => by
      simpa using List.all_eq_true.mp clean none fault
    obtain ⟨text', rfl⟩ := exists_text clean
    rw [scan_encode] at decoded
    have same : text' = text := by simpa using decoded
    rw [same]
  · cases decoded

end TokenKeeper.Text.Utf8
