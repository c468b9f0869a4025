import TokenKeeper.Json.Mismatch
import TokenKeeper.Proofs.Text.Utf8
/-! Natural numbers of 64 bits read back as they were written: their digits begin with a zero only
if there is no other, and none of them lies beyond double precision. -/
namespace TokenKeeper.Json
open Text.Utf8 (encode)

namespace Number

def digits (n : Nat) : List Nat := (Nat.toDigits 10 n).map fun c => c.toNat - '0'.toNat

theorem digits_of_lt {n : Nat} (h : n < 10) : digits n = [n] := by
  rw [digits, Nat.toDigits_of_lt_base h, List.map_singleton, Nat.toNat_digitChar_of_lt_ten h]
  simp

theorem digits_of_le {n : Nat} (h : 10 ≤ n) : digits n = digits (n / 10) ++ [n % 10] := by
  have hlast : digits (n % 10) = [n % 10] := digits_of_lt (Nat.mod_lt _ (by decide))
  rw [digits, Nat.toDigits_of_base_le (by decide) h, List.map_append]
  rw [digits, Nat.toDigits_of_lt_base (Nat.mod_lt _ (by decide))] at hlast
  rw [hlast, digits]

theorem digits_ne_nil (n : Nat) : digits n ≠ [] := by
  simp [digits]

theorem ofDigits_digits (n : Nat) : ofDigits (digits n) = n := by
  have h := Nat.ofDigitChars_ten_toDigits (n := n)
  rw [Nat.ofDigitChars] at h
  rw [ofDigits, digits, List.foldl_map]
  simpa only [Nat.mul_comm] using h

theorem toDigits_range {n : Nat} {c : Char} (h : c ∈ Nat.toDigits 10 n) :
    '0'.toNat ≤ c.toNat ∧ c.toNat < '0'.toNat + 10 := by
  have hdigit := Nat.isDigit_of_mem_toDigits (by decide) (by decide) h
  simp only [Char.isDigit, Bool.and_eq_true, decide_eq_true_eq] at hdigit
  exact ⟨UInt32.le_iff_toNat_le.1 hdigit.1, Nat.lt_succ_of_le (UInt32.le_iff_toNat_le.1 hdigit.2)⟩

theorem digits_lt {n d : Nat} (h : d ∈ digits n) : d < 10 := by
  obtain ⟨c, hc, rfl⟩ := List.mem_map.1 h
  have hrange := toDigits_range hc
  omega

theorem digits_head (n : Nat) (h : (digits n).head? = some 0) : (digits n).length = 1 := by
  suffices hzero : n = 0 by subst hzero; rfl
  induction n using Nat.strongRecOn with
  | _ n ih =>
    obtain hlt | hle := Nat.lt_or_ge n 10
    case inl => simpa [digits_of_lt hlt] using h
    case inr =>
      rw [digits_of_le hle, List.head?_append_of_ne_nil _ (digits_ne_nil _)] at h
      have hzero := ih (n / 10) (by omega) h
      omega

def octet (d : Nat) : UInt8 := UInt8.ofNat (0x30 + d)

theorem encode_toDigits (n : Nat) : encode (Nat.toDigits 10 n) = (digits n).map octet := by
  have hascii (c : Char) (hc : c ∈ Nat.toDigits 10 n) : c.toNat < 0x80 :=
    Nat.lt_trans (toDigits_range hc).2 (by decide)
  rw [Text.Utf8.encode_ascii hascii, digits, List.map_map]
  refine List.map_congr_left fun c hc => ?_
  rw [Function.comp_apply, octet]
  exact congrArg UInt8.ofNat (Nat.add_sub_cancel' (toDigits_range hc).1).symm

theorem toNat_octet {d : Nat} (h : d < 10) : (octet d).toNat = 0x30 + d :=
  Text.Utf8.toNat_octet (by omega)

theorem isDigit_octet {d : Nat} (h : d < 10) : isDigit (octet d) = true := by
  simp only [isDigit, Bool.and_eq_true, decide_eq_true_eq, UInt8.le_iff_toNat_le, toNat_octet h]
  exact ⟨Nat.le_add_right 0x30 d, Nat.add_le_add_left (Nat.le_of_lt_succ h) 0x30⟩

theorem isDigit_of_mem {n : Nat} {o : UInt8} (h : o ∈ (digits n).map octet) : isDigit o = true := by
  obtain ⟨d, hd, rfl⟩ := List.mem_map.1 h
  exact isDigit_octet (digits_lt hd)

theorem exists_first (n : Nat) :
    ∃ first others, (digits n).map octet = first :: others ∧ isDigit first = true := by
  obtain ⟨first, others, hcons⟩ :=
    List.exists_cons_of_ne_nil (mt List.map_eq_nil_iff.1 (digits_ne_nil n))
  exact ⟨first, others, hcons, isDigit_of_mem (hcons ▸ List.mem_cons_self)⟩

def ends (octet : UInt8) : Bool :=
  !isDigit octet && octet != 0x2e && octet != 0x65 && octet != 0x45

section Reading
variable {stop : UInt8} (hstop : ends stop = true) (n : Nat) (rest : List UInt8)
include hstop

theorem readDigits_digits :
    readDigits ((digits n).map octet ++ stop :: rest) = .ok (digits n, stop :: rest) := by
  have hstop : isDigit stop = false := by simp only [ends, Bool.and_eq_true] at hstop; simp_all
  have hall : ∀ o ∈ (digits n).map octet, isDigit o = true := fun _ => isDigit_of_mem
  have htake : ((digits n).map octet ++ stop :: rest).takeWhile isDigit = (digits n).map octet := by
    rw [List.takeWhile_append_of_pos hall, List.takeWhile_cons_of_neg (by simp [hstop]),
      List.append_nil]
  have hdrop : ((digits n).map octet ++ stop :: rest).dropWhile isDigit = stop :: rest := by
    rw [List.dropWhile_append_of_pos hall, List.dropWhile_cons_of_neg (by simp [hstop])]
  have hback : ((digits n).map octet).map (fun o => o.toNat - 0x30) = digits n := by
    rw [List.map_map]
    refine (List.map_congr_left fun d hd => ?_).trans (List.map_id _)
    rw [Function.comp_apply, toNat_octet (digits_lt hd), Nat.add_sub_cancel_left, id]
  obtain ⟨first, others, hcons, hfirst⟩ := exists_first n
  rw [hcons, List.cons_append] at htake hdrop ⊢
  rw [readDigits, if_pos hfirst, htake, hdrop, ← hcons, hback]

theorem readWhole_digits :
    readWhole ((digits n).map octet ++ stop :: rest) = .ok (digits n, stop :: rest) := by
  have halone : ¬ ((digits n).head? = some 0 ∧ (digits n).length ≠ 1) :=
    fun h => h.2 (digits_head n h.1)
  rw [readWhole, readDigits_digits hstop]
  exact if_neg halone

theorem readFraction_stop : readFraction (stop :: rest) = .ok (none, stop :: rest) := by
  unfold readFraction
  split
  next heq => simp_all [ends]
  next => rfl

theorem readExponent_stop : readExponent (stop :: rest) = .ok (none, stop :: rest) := by
  rw [readExponent, if_neg]
  simp_all [ends]

end Reading

theorem le_foldl (digits : List Nat) (n : Nat) : n ≤ digits.foldl (fun n d => n * 10 + d) n := by
  induction digits generalizing n with
  | nil => exact Nat.le_refl n
  | cons d digits ih => exact Nat.le_trans (by omega) (ih (n * 10 + d))

theorem absorb_eq {digits : List Nat} {n : Nat}
    (h : digits.foldl (fun n d => n * 10 + d) n < Nat.pow 2 64) :
    absorb n digits = (digits.foldl (fun n d => n * 10 + d) n, []) := by
  induction digits generalizing n with
  | nil => rfl
  | cons d digits ih =>
    rw [List.foldl_cons] at h ⊢
    rw [absorb, if_pos (Nat.lt_of_le_of_lt (le_foldl digits _) h), ih h]

theorem round53_le {n : Nat} (h : n ≠ 0) : round53 n ≤ 2 * n := by
  have hunit : Nat.pow 2 (n.log2 - 52) ≤ n :=
    Nat.le_trans (Nat.pow_le_pow_right (by decide) (Nat.sub_le _ _)) (Nat.log2_self_le h)
  have hdown := Nat.div_mul_le_self n (Nat.pow 2 (n.log2 - 52))
  rw [round53]
  generalize Nat.pow 2 (n.log2 - 52) = unit at hunit hdown
  split
  · rw [Nat.add_mul]; omega
  · rw [Nat.add_zero]; omega

theorem not_overflows {n : Nat} (h : n < Nat.pow 2 64) :
    overflows ⟨false, digits n, none, none⟩ = false := by
  have habsorb : absorb 0 (digits n) = (n, []) := by
    have hdigits : (digits n).foldl (fun n d => n * 10 + d) 0 = n := ofDigits_digits n
    rw [absorb_eq (by rwa [hdigits]), hdigits]
  obtain rfl | hn := Nat.eq_zero_or_pos n
  case inl => decide
  case inr =>
    have hrange : 2 * Nat.pow 2 64 ≤ Nat.pow 2 1024 - Nat.pow 2 970 := by decide +kernel
    have hround : round53 n * round53 (Nat.pow 10 0) < Nat.pow 2 1024 - Nat.pow 2 970 := by
      rw [show round53 (Nat.pow 10 0) = 1 by decide, Nat.mul_one]
      have := round53_le (Nat.ne_of_gt hn)
      omega
    unfold overflows
    generalize Nat.pow 2 1024 - Nat.pow 2 970 = range at hround ⊢
    have hpower : ((List.length ([] : List Nat) : Int) -
        ((List.length ([] : List Nat) - List.length ([] : List Nat) : Nat) : Int) + 0) = 0 := rfl
    have hwithin : decide (round53 n * round53 (Nat.pow 10 0) ≥ range) = false :=
      decide_eq_false (Nat.not_le.2 hround)
    simp only [habsorb, absorb, Option.getD_none, hpower, Int.toNat_zero, hwithin]
    rw [show decide ((0 : Int) > 308) = false from rfl, Bool.or_false, Bool.and_false]

theorem read_digits {stop : UInt8} (hstop : ends stop = true) {n : Nat} (h : n < Nat.pow 2 64)
    (rest : List UInt8) :
    read ((digits n).map octet ++ stop :: rest) =
      .ok (⟨false, digits n, none, none⟩, stop :: rest) := by
  have hwhole := readWhole_digits hstop n rest
  obtain ⟨first, others, hcons, hfirst⟩ := exists_first n
  have hsign : first ≠ 0x2d := by rintro rfl; exact absurd hfirst (by decide)
  rw [hcons, List.cons_append] at hwhole ⊢
  unfold read
  split
  next heq =>
    split at heq
    next hminus => exact absurd (List.cons.inj hminus).1 hsign
    next =>
      obtain ⟨rfl, rfl⟩ := Prod.mk.inj heq
      simp only [hwhole, readFraction_stop hstop, readExponent_stop hstop, bind, Except.bind,
        not_overflows h, Bool.false_eq_true, if_false]

theorem natural?_digits {n : Nat} (h : n < Nat.pow 2 64) :
    natural? ⟨false, digits n, none, none⟩ = some (UInt64.ofNat n) := by
  simp [natural?, ofDigits_digits, h]

end Number

/-- A number of 64 bits is read back, up to what ends it. -/
theorem readNatural_toDigits (n : UInt64) {stop : UInt8} (hstop : Number.ends stop = true)
    (rest : List UInt8) :
    readNatural (encode (Nat.toDigits 10 n.toNat) ++ stop :: rest) = .ok (n, stop :: rest) := by
  have hn : n.toNat < Nat.pow 2 64 := n.toNat_lt
  have hread := Number.read_digits hstop hn rest
  obtain ⟨first, others, hcons, hfirst⟩ := Number.exists_first n.toNat
  have hblank : ¬ isBlank first = true := by
    intro h
    simp only [isBlank, Bool.or_eq_true, beq_iff_eq] at h
    obtain ((rfl | rfl) | rfl) | rfl := h <;> exact absurd hfirst (by decide)
  rw [Number.encode_toDigits]
  rw [hcons, List.cons_append] at hread ⊢
  simp only [readNatural, skipBlanks, List.dropWhile_cons_of_neg hblank, List.head?_cons,
    Option.any_some, hfirst, Bool.or_true, if_true, hread, bind, Except.bind,
    Number.natural?_digits hn, UInt64.ofNat_toNat]

end TokenKeeper.Json
