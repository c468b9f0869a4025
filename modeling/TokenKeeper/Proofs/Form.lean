import TokenKeeper.Form
import TokenKeeper.Json.Fault
import TokenKeeper.Proofs.Text.Utf8
/-! Form data read back. Any form text has a reading: empty pieces are passed over, a name ends at
the first equals sign, and a percent sign without two digits stands for itself. -/
namespace TokenKeeper.Form
open Text

def digitPair? : List UInt8 → Option UInt8
  | high :: low :: _ => do
    let high ← Json.hexValue? high
    let low ← Json.hexValue? low
    some (UInt8.ofNat (16 * high + low))
  | _ => none

def unescape (digits : Nat) : List UInt8 → List UInt8
  | [] => []
  | octet :: rest =>
    match digits with
    | digits+1 => unescape digits rest
    | 0 =>
      if octet = 0x2b then 0x20 :: unescape 0 rest
      else match if octet = 0x25 then digitPair? rest else none with
        | some meant => meant :: unescape 2 rest
        | none => octet :: unescape 0 rest

def decodeText (octets : List UInt8) : String :=
  String.ofList (Utf8.decodeLossy (unescape 0 octets))

def decodePair (octets : List UInt8) : String × String :=
  (decodeText (octets.takeWhile (· ≠ 0x3d)), decodeText ((octets.dropWhile (· ≠ 0x3d)).drop 1))

/-- The pairs in order, repeated names too. -/
def decode (octets : List UInt8) : List (String × String) :=
  ((octets.splitOn 0x26).filter (· ≠ [])).map decodePair

theorem isPlain_range : ∀ n < 256, isPlain (UInt8.ofNat n) = true →
    n < 0x80 ∧ n ≠ 0x25 ∧ n ≠ 0x26 ∧ n ≠ 0x2b ∧ n ≠ 0x3d := by
  decide +kernel

theorem hexDigit_range : ∀ d < 16, (hexDigit d).toNat < 0x80 ∧ (hexDigit d).toNat ≠ 0x26 ∧
    (hexDigit d).toNat ≠ 0x3d ∧ Json.hexValue? (UInt8.ofNat (hexDigit d).toNat) = some d := by
  decide

theorem encodeOctet_range (octet : UInt8) (c : Char) (h : c ∈ encodeOctet octet) :
    c.toNat < 0x80 ∧ c.toNat ≠ 0x26 ∧ c.toNat ≠ 0x3d := by
  have hlt : octet.toNat < 256 := octet.toNat_lt
  unfold encodeOctet at h
  split at h
  next hplain =>
    obtain ⟨hascii, -, hand, -, hequals⟩ :=
      isPlain_range octet.toNat hlt (by rwa [UInt8.ofNat_toNat])
    rw [List.mem_singleton.1 h, Utf8.toNat_ofNat hascii]
    exact ⟨hascii, hand, hequals⟩
  split at h
  next =>
    rw [List.mem_singleton.1 h]
    decide
  next =>
    have hhigh := hexDigit_range (octet.toNat / 16) (by omega)
    have hlow := hexDigit_range (octet.toNat % 16) (by omega)
    simp only [List.mem_cons, List.not_mem_nil, or_false] at h
    obtain rfl | rfl | rfl := h
    · decide
    · exact ⟨hhigh.1, hhigh.2.1, hhigh.2.2.1⟩
    · exact ⟨hlow.1, hlow.2.1, hlow.2.2.1⟩

theorem unescape_encodeOctet (octet : UInt8) (rest : List UInt8) :
    unescape 0 (Utf8.encode (encodeOctet octet) ++ rest) = octet :: unescape 0 rest := by
  have hlt : octet.toNat < 256 := octet.toNat_lt
  rw [Utf8.encode_ascii fun c hc => (encodeOctet_range octet c hc).1, encodeOctet]
  split
  next hplain =>
    obtain ⟨hascii, hpercent, -, hplus, -⟩ :=
      isPlain_range octet.toNat hlt (by rwa [UInt8.ofNat_toNat])
    have hne (d : UInt8) (hd : octet.toNat ≠ d.toNat) : octet ≠ d := fun h => hd (h ▸ rfl)
    rw [List.map_singleton, Utf8.toNat_ofNat hascii, UInt8.ofNat_toNat, List.singleton_append,
      unescape, if_neg (hne 0x2b hplus), if_neg (hne 0x25 hpercent)]
  split
  next hblank =>
    rw [hblank]
    rfl
  next =>
    obtain ⟨-, -, -, hhigh⟩ := hexDigit_range (octet.toNat / 16) (by omega)
    obtain ⟨-, -, -, hlow⟩ := hexDigit_range (octet.toNat % 16) (by omega)
    simp only [List.map_cons, List.map_nil, List.cons_append, List.nil_append]
    have hpair : digitPair? (UInt8.ofNat (hexDigit (octet.toNat / 16)).toNat ::
        UInt8.ofNat (hexDigit (octet.toNat % 16)).toNat :: rest) = some octet := by
      simp only [digitPair?, hhigh, hlow, bind, Option.bind, Nat.div_add_mod, UInt8.ofNat_toNat]
    rw [unescape, if_neg (by decide), if_pos (by decide), hpair]
    rfl

theorem unescape_encodeText (octets : List UInt8) :
    unescape 0 (Utf8.encode (octets.flatMap encodeOctet)) = octets := by
  induction octets with
  | nil => rfl
  | cons octet octets ih =>
    rw [List.flatMap_cons, Utf8.encode_append, unescape_encodeOctet, ih]

theorem decodeText_encodeText (text : String) :
    decodeText (Utf8.encode (encodeText text)) = text := by
  rw [decodeText, encodeText, unescape_encodeText, Utf8.decodeLossy_encode, String.ofList_toList]

theorem encodeText_range (text : String) (octet : UInt8)
    (h : octet ∈ Utf8.encode (encodeText text)) : octet ≠ 0x26 ∧ octet ≠ 0x3d := by
  have hrange (c : Char) (hc : c ∈ encodeText text) :
      c.toNat < 0x80 ∧ c.toNat ≠ 0x26 ∧ c.toNat ≠ 0x3d := by
    obtain ⟨o, -, ho⟩ := List.mem_flatMap.1 hc
    exact encodeOctet_range o c ho
  rw [Utf8.encode_ascii fun c hc => (hrange c hc).1] at h
  obtain ⟨c, hc, rfl⟩ := List.mem_map.1 h
  obtain ⟨hascii, hand, hequals⟩ := hrange c hc
  have hnat : (UInt8.ofNat c.toNat).toNat = c.toNat := Utf8.toNat_octet (by omega)
  exact ⟨fun heq => hand (by rw [← hnat, heq]; rfl), fun heq => hequals (by rw [← hnat, heq]; rfl)⟩

theorem encode_encodePair (pair : String × String) :
    Utf8.encode (encodePair pair) =
      Utf8.encode (encodeText pair.1) ++ 0x3d :: Utf8.encode (encodeText pair.2) := by
  rw [encodePair, Utf8.encode_append, Utf8.encode_cons]
  rfl

theorem decodePair_encodePair (pair : String × String) :
    decodePair (Utf8.encode (encodePair pair)) = pair := by
  have hname : ∀ octet ∈ Utf8.encode (encodeText pair.1), decide (octet ≠ 0x3d) = true :=
    fun octet h => decide_eq_true (encodeText_range _ octet h).2
  rw [decodePair, encode_encodePair, List.takeWhile_append_of_pos hname,
    List.dropWhile_append_of_pos hname]
  simp [decodeText_encodeText]

theorem encode_encode (pairs : List (String × String)) :
    Utf8.encode (encode pairs) =
      [0x26].intercalate (pairs.map fun pair => Utf8.encode (encodePair pair)) := by
  rw [encode]
  induction pairs with
  | nil => rfl
  | cons pair pairs ih =>
    cases pairs with
    | nil => simp only [List.map_singleton, List.intercalate_singleton]
    | cons next pairs =>
      simp only [List.map_cons] at ih ⊢
      rw [List.intercalate_cons_cons, List.intercalate_cons_cons, Utf8.encode_append,
        Utf8.encode_append, ih]
      rfl

/-- Any pairs, in any order and number, are read back from the form they were written as. -/
theorem decode_encode (pairs : List (String × String)) :
    decode (Utf8.encode (encode pairs)) = pairs := by
  have hpieces : ∀ piece ∈ pairs.map fun pair => Utf8.encode (encodePair pair),
      0x26 ∉ piece ∧ piece ≠ [] := by
    intro piece hpiece
    obtain ⟨pair, -, rfl⟩ := List.mem_map.1 hpiece
    rw [encode_encodePair]
    refine ⟨fun hmem => ?_, by simp⟩
    obtain hmem | hmem := List.mem_append.1 hmem
    · exact (encodeText_range _ _ hmem).1 rfl
    · obtain hmem | hmem := List.mem_cons.1 hmem
      · exact absurd hmem (by decide)
      · exact (encodeText_range _ _ hmem).1 rfl
  obtain rfl | hpairs := eq_or_ne pairs []
  case inl => rfl
  case inr =>
    have hfilter : (pairs.map fun pair => Utf8.encode (encodePair pair)).filter (· ≠ []) =
        pairs.map fun pair => Utf8.encode (encodePair pair) :=
      List.filter_eq_self.2 fun piece h => decide_eq_true (hpieces piece h).2
    rw [decode, encode_encode, List.splitOn_intercalate _ (fun piece h => (hpieces piece h).1)
      (by simpa using hpairs), hfilter, List.map_map]
    exact (List.map_congr_left fun pair _ => decodePair_encodePair pair).trans (List.map_id _)

end TokenKeeper.Form
