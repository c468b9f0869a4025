import TokenKeeper.Json.Mismatch
import TokenKeeper.Proofs.Text.Utf8
/-! Strings read back as they were written, whatever characters they hold: a reader is followed
from one character to the next, through the escapes. -/
namespace TokenKeeper.Json
open Text.Utf8 (encode encodeChar encodeChar_ascii)

namespace Quoted

theorem readFrom_step {progress next : Progress} {octet : UInt8} {octets : List UInt8}
    (hopen : progress ≠ .plain ∨ octet ≠ 0x22) (hstep : step progress octet = .ok (octets, next))
    (done rest : List UInt8) :
    readFrom progress done (octet :: rest) = readFrom next (octets.reverse ++ done) rest := by
  have hopen : ¬ (progress = .plain ∧ octet = 0x22) := fun h => hopen.elim (· h.1) (· h.2)
  rw [readFrom, if_neg hopen, hstep]

def isPlain (octet : UInt8) : Bool := 0x20 ≤ octet && octet ≠ 0x22 && octet ≠ 0x5c

theorem readFrom_plain {octets : List UInt8} (h : ∀ octet ∈ octets, isPlain octet = true)
    (done rest : List UInt8) :
    readFrom .plain done (octets ++ rest) = readFrom .plain (octets.reverse ++ done) rest := by
  induction octets generalizing done with
  | nil => rfl
  | cons octet octets ih =>
    have hplain := h octet List.mem_cons_self
    simp only [isPlain, Bool.and_eq_true, decide_eq_true_eq] at hplain
    obtain ⟨⟨hlow, hquote⟩, hslash⟩ := hplain
    have hstep : step .plain octet = .ok ([octet], .plain) := by
      rw [step, if_neg hslash, if_neg (UInt8.not_lt.2 hlow)]
    rw [List.cons_append, readFrom_step (.inr hquote) hstep,
      ih fun o ho => h o (List.mem_cons_of_mem _ ho)]
    simp
end Quoted

theorem hexValue_digitChar : ∀ d < 16,
    (encodeChar (Nat.digitChar d)).map hexValue? = [some d] := by
  decide

theorem encodeChar_digitChar {d : Nat} (h : d < 16) :
    ∃ octet, encodeChar (Nat.digitChar d) = [octet] ∧ hexValue? octet = some d := by
  have hmap := hexValue_digitChar d h
  obtain ⟨octet, hoctet⟩ := List.length_eq_one_iff.1 (by
    simpa using congrArg List.length hmap : (encodeChar (Nat.digitChar d)).length = 1)
  rw [hoctet] at hmap
  exact ⟨octet, hoctet, by simpa using hmap⟩

namespace Quoted

theorem readFrom_unit {n : Nat} (h : n < 0x20) (done rest : List UInt8) :
    readFrom .plain done (encode ['\\', 'u', '0', '0', Nat.digitChar (n / 16),
      Nat.digitChar (n % 16)] ++ rest) =
      readFrom .plain ((encodeChar (Char.ofNat n)).reverse ++ done) rest := by
  obtain ⟨high, hhigh, hhighValue⟩ := encodeChar_digitChar (show n / 16 < 16 by omega)
  obtain ⟨low, hlow, hlowValue⟩ := encodeChar_digitChar (show n % 16 < 16 by omega)
  have hencode : encode ['\\', 'u', '0', '0', Nat.digitChar (n / 16), Nat.digitChar (n % 16)] =
      [0x5c, 0x75, 0x30, 0x30, high, low] := by
    simp only [encode, List.flatMap_cons, hhigh, hlow]
    rfl
  have hcomplete : complete none n = .ok (encodeChar (Char.ofNat n), .plain) := by
    simp [complete, isLow, isHigh, show ¬ 0xdc00 ≤ n by omega, show ¬ 0xd800 ≤ n by omega]
  have hlast : step (.unit none 0 (n / 16) true) low =
      .ok (encodeChar (Char.ofNat n), .plain) := by
    simp only [step, hlowValue, Option.getD_some, Option.isSome_some, Bool.and_true, if_true,
      Nat.div_add_mod', hcomplete]
  have hfirst : step (.unit none 1 0 true) high = .ok ([], .unit none 0 (n / 16) true) := by
    simp [step, hhighValue]
  have hopened : readFrom .plain done ([0x5c, 0x75, 0x30, 0x30, high, low] ++ rest) =
      readFrom (.unit none 1 0 true) done (high :: low :: rest) := rfl
  rw [hencode, hopened, readFrom_step (.inl (by simp)) hfirst,
    readFrom_step (.inl (by simp)) hlast]
  rfl

theorem isPlain_of_mem {c : Char} (hcontrol : 0x20 ≤ c.toNat) (hquote : c ≠ '"')
    (hslash : c ≠ '\\') {octet : UInt8} (hoctet : octet ∈ encodeChar c) :
    isPlain octet = true := by
  have hne (d : UInt8) (hd : octet.toNat ≠ d.toNat) : octet ≠ d := fun h => hd (h ▸ rfl)
  obtain hascii | hwide := Nat.lt_or_ge c.toNat 0x80
  case inl =>
    obtain rfl : octet = UInt8.ofNat c.toNat := by simpa [encodeChar_ascii hascii] using hoctet
    have hnat : (UInt8.ofNat c.toNat).toNat = c.toNat := Text.Utf8.toNat_octet (by omega)
    have hchar (d : Char) (hd : c ≠ d) : c.toNat ≠ d.toNat := fun h => hd (Char.toNat_inj.1 h)
    simp only [isPlain, Bool.and_eq_true, decide_eq_true_eq]
    exact ⟨⟨by rw [UInt8.le_iff_toNat_le, hnat]; exact hcontrol,
      hne _ (by rw [hnat]; exact hchar _ hquote)⟩, hne _ (by rw [hnat]; exact hchar _ hslash)⟩
  case inr =>
    have hle := Text.Utf8.le_of_mem_encodeChar hwide hoctet
    simp only [isPlain, Bool.and_eq_true, decide_eq_true_eq]
    refine ⟨⟨UInt8.le_iff_toNat_le.2 (Nat.le_trans (by decide) hle), hne _ ?_⟩, hne _ ?_⟩
    · exact Nat.ne_of_gt (Nat.lt_of_lt_of_le (by decide) hle)
    · exact Nat.ne_of_gt (Nat.lt_of_lt_of_le (by decide) hle)

theorem readFrom_escape (c : Char) (done rest : List UInt8) :
    readFrom .plain done (encode (escape c) ++ rest) =
      readFrom .plain ((encodeChar c).reverse ++ done) rest := by
  unfold escape
  split
  case h_8 hquote hslash _ _ _ _ _ =>
    split
    next hcontrol => rw [readFrom_unit hcontrol, Char.ofNat_toNat]
    next hcontrol =>
      rw [Text.Utf8.encode_cons, Text.Utf8.encode_nil, List.append_nil]
      exact readFrom_plain (fun _ => isPlain_of_mem (Nat.not_lt.1 hcontrol) hquote hslash) done
        rest
  all_goals rfl

theorem readFrom_escapes (text : List Char) (done rest : List UInt8) :
    readFrom .plain done (encode (text.flatMap escape) ++ rest) =
      readFrom .plain ((encode text).reverse ++ done) rest := by
  induction text generalizing done with
  | nil => rfl
  | cons c text ih =>
    rw [List.flatMap_cons, Text.Utf8.encode_append, List.append_assoc, readFrom_escape, ih,
      Text.Utf8.encode_cons, List.reverse_append, List.append_assoc]

def written (text : String) : List UInt8 := encode (text.toList.flatMap escape) ++ [0x22]

@[simp] theorem read_written (text : String) (rest : List UInt8) :
    read (written text ++ rest) = .ok (text, rest) := by
  rw [read, written, List.append_assoc, readFrom_escapes, List.singleton_append, readFrom,
    if_pos ⟨rfl, rfl⟩, List.append_nil, List.reverse_reverse, Text.Utf8.decode_encode]
  simp

end Quoted

@[simp] theorem encode_quoted (text : String) :
    encode (quoted text) = 0x22 :: Quoted.written text := by
  rw [quoted, List.cons_append, Text.Utf8.encode_cons, Text.Utf8.encode_append]
  rfl

theorem readString_quoted (text : String) (rest : List UInt8) :
    readString (encode (quoted text) ++ rest) = .ok (text, rest) := by
  rw [encode_quoted]
  exact Quoted.read_written text rest

theorem readOptionalString_quoted (text : String) (rest : List UInt8) :
    readOptionalString (encode (quoted text) ++ rest) = .ok (some text, rest) := by
  rw [encode_quoted]
  change ((Quoted.read (Quoted.written text ++ rest)).map fun read => (some read.1, read.2)) = _
  rw [Quoted.read_written]
  rfl

@[simp] theorem stringOf_quoted (text : String) :
    stringOf (encode (quoted text)) = .ok text := by
  have hread := readString_quoted text []
  rw [List.append_nil] at hread
  rw [stringOf, hread]
  rfl

end TokenKeeper.Json
