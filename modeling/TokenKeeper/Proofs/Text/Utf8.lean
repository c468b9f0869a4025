import Mathlib.Data.List.Basic
import Mathlib.Tactic.SplitIfs
import TokenKeeper.Text.Utf8
/-! What is encoded decodes to itself, strictly and lossily, so no two texts share their octets. A
decoder is followed from one character to the next. -/
namespace TokenKeeper.Text.Utf8

theorem scanFrom_cons (progress : Progress) (octet : UInt8) (rest : List UInt8) :
    scanFrom progress (octet :: rest) =
      (step progress octet).1 ++ scanFrom (step progress octet).2 rest := by
  cases progress <;> rfl

theorem toNat_octet {n : Nat} (h : n < 256) : (UInt8.ofNat n).toNat = n :=
  UInt8.toNat_ofNat_of_lt' h

theorem toNat_trail (n : Nat) : (trail n).toNat = 0x80 + n % 64 := toNat_octet (by omega)

theorem scanFrom_first {octet : UInt8} {progress : Progress} (h : first octet = ([], progress))
    (rest : List UInt8) :
    scanFrom .between (octet :: rest) = scanFrom progress rest := by
  rw [scanFrom_cons, step, h, List.nil_append]

section Trail
variable {low high : Nat} (value n : Nat) (rest : List UInt8)

theorem scanFrom_last (hlow : low ≤ 0x80 + n % 64) (hhigh : 0x80 + n % 64 ≤ high) :
    scanFrom (.inside 0 low high value) (trail n :: rest) =
      some (Char.ofNat (value * 64 + n % 64)) :: scanFrom .between rest := by
  rw [scanFrom_cons, step, toNat_trail, if_pos ⟨hlow, hhigh⟩, Nat.add_sub_cancel_left]
  rfl

theorem scanFrom_more (more : Nat) (hlow : low ≤ 0x80 + n % 64) (hhigh : 0x80 + n % 64 ≤ high) :
    scanFrom (.inside (more + 1) low high value) (trail n :: rest) =
      scanFrom (.inside more 0x80 0xbf (value * 64 + n % 64)) rest := by
  rw [scanFrom_cons, step, toNat_trail, if_pos ⟨hlow, hhigh⟩, Nat.add_sub_cancel_left]
  rfl

end Trail

theorem toNat_range (c : Char) : c.toNat < 0xd800 ∨ 0xdfff < c.toNat ∧ c.toNat < 0x110000 :=
  c.valid

/-- A decoder between two characters takes up exactly what one was written as. -/
theorem scanFrom_encodeChar (c : Char) (rest : List UInt8) :
    scanFrom .between (encodeChar c ++ rest) = some c :: scanFrom .between rest := by
  have hrange := toNat_range c
  have hc : Char.ofNat c.toNat = c := Char.ofNat_toNat c
  unfold encodeChar
  generalize c.toNat = n at hrange hc
  simp only
  -- one case per number of octets
  split
  next h1 =>
    have hfirst : first (UInt8.ofNat n) = ([some c], .between) := by
      rw [first, toNat_octet (by omega), if_pos h1, hc]
    rw [List.singleton_append, scanFrom_cons, step, hfirst, List.singleton_append]
  split
  next h1 h2 =>
    have hfirst : first (UInt8.ofNat (0xc0 + n / 64)) = ([], .inside 0 0x80 0xbf (n / 64)) := by
      rw [first, toNat_octet (by omega)]
      grind
    rw [List.cons_append, List.singleton_append, scanFrom_first hfirst,
      scanFrom_last _ _ _ (by omega) (by omega), show n / 64 * 64 + n % 64 = n by omega, hc]
  split
  next h1 h2 h3 =>
    have hfirst : first (UInt8.ofNat (0xe0 + n / 4096)) =
        ([], .inside 1 (if n / 4096 = 0 then 0xa0 else 0x80)
          (if n / 4096 = 13 then 0x9f else 0xbf) (n / 4096)) := by
      rw [first, toNat_octet (by omega)]
      grind
    rw [List.cons_append, List.cons_append, List.singleton_append, scanFrom_first hfirst,
      scanFrom_more _ _ _ _ (by split <;> omega) (by split <;> omega),
      scanFrom_last _ _ _ (by omega) (by omega),
      show (n / 4096 * 64 + n / 64 % 64) * 64 + n % 64 = n by omega, hc]
  next h1 h2 h3 =>
    have hfirst : first (UInt8.ofNat (0xf0 + n / 262144)) =
        ([], .inside 2 (if n / 262144 = 0 then 0x90 else 0x80)
          (if n / 262144 = 4 then 0x8f else 0xbf) (n / 262144)) := by
      rw [first, toNat_octet (by omega)]
      grind
    rw [List.cons_append, List.cons_append, List.cons_append, List.singleton_append,
      scanFrom_first hfirst, scanFrom_more _ _ _ _ (by split <;> omega) (by split <;> omega),
      scanFrom_more _ _ _ _ (by omega) (by omega), scanFrom_last _ _ _ (by omega) (by omega),
      show ((n / 262144 * 64 + n / 4096 % 64) * 64 + n / 64 % 64) * 64 + n % 64 = n by omega, hc]

/-- No fault is found in what was encoded. -/
theorem scan_encode (text : List Char) : scan (encode text) = text.map some := by
  rw [scan, encode]
  induction text with
  | nil => rfl
  | cons c text ih => rw [List.flatMap_cons, scanFrom_encodeChar, ih, List.map_cons]

@[simp] theorem decode_encode (text : List Char) : decode (encode text) = some text := by
  simp [decode, scan_encode]

@[simp] theorem decodeLossy_encode (text : List Char) : decodeLossy (encode text) = text := by
  rw [decodeLossy, scan_encode, List.map_map]
  exact List.map_id text

theorem toNat_ofNat {n : Nat} (h : n < 0x80) : (Char.ofNat n).toNat = n := by
  rw [Char.ofNat, dif_pos (show n.isValidChar from .inl (by omega))]
  rfl

theorem encodeChar_ascii {c : Char} (h : c.toNat < 0x80) :
    encodeChar c = [UInt8.ofNat c.toNat] := if_pos h

theorem le_of_mem_encodeChar {c : Char} (h : 0x80 ≤ c.toNat) {octet : UInt8}
    (hoctet : octet ∈ encodeChar c) : 0x80 ≤ octet.toNat := by
  have hrange := toNat_range c
  unfold encodeChar trail at hoctet
  generalize c.toNat = n at h hrange hoctet
  simp only [show ¬ n < 0x80 by omega, if_false] at hoctet
  split_ifs at hoctet <;>
    simp only [List.mem_cons, List.not_mem_nil, or_false] at hoctet <;>
    rcases hoctet with rfl | rfl | rfl | rfl <;>
    rw [toNat_octet (by omega)] <;> omega

@[simp] theorem encode_nil : encode [] = [] := rfl

@[simp] theorem encode_cons (c : Char) (text : List Char) :
    encode (c :: text) = encodeChar c ++ encode text := List.flatMap_cons

@[simp] theorem encode_append (a b : List Char) : encode (a ++ b) = encode a ++ encode b :=
  List.flatMap_append

theorem encode_ascii {text : List Char} (h : ∀ c ∈ text, c.toNat < 0x80) :
    encode text = text.map fun c => UInt8.ofNat c.toNat := by
  induction text with
  | nil => rfl
  | cons c text ih =>
    rw [encode_cons, encodeChar_ascii (h c List.mem_cons_self),
      ih fun d hd => h d (List.mem_cons_of_mem _ hd), List.map_cons, List.singleton_append]

end TokenKeeper.Text.Utf8
