import TokenKeeper.Proofs.Json.Number
import TokenKeeper.Proofs.Json.Object
/-! What an issuer answers reads back as it was written, and so does the text of every credential:
nothing is left out of it. -/
namespace TokenKeeper
open Json Text.Utf8

namespace Resource

theorem readMembers_last {members members' : Members} {octets rest : List UInt8}
    (h : readMember members octets = .ok (members', 0x7d :: rest)) (fuel : Nat) :
    readMembers (fuel + 1) members octets = .ok (members', rest) := by
  rw [readMembers, h]
  rfl

theorem readMembers_more {members members' : Members} {octets rest : List UInt8}
    (h : readMember members octets = .ok (members', 0x2c :: 0x22 :: rest)) (fuel : Nat) :
    readMembers (fuel + 1) members octets = readMembers fuel members' rest := by
  rw [readMembers, h]
  rfl

theorem readMember_token (members : Members) (h : members.token = none) (text : String)
    (rest : List UInt8) :
    readMember members (Quoted.written "access_token" ++ 0x3a :: (encode (quoted text) ++ rest)) =
      .ok (⟨some (some text), members.lifetime⟩, rest) := by
  rw [readMember, Quoted.read_written]
  change (if members.token.isSome then _ else
    (readOptionalString (encode (quoted text) ++ rest)).map fun read =>
      ((⟨some read.1, members.lifetime⟩ : Members), read.2)) = _
  rw [h, readOptionalString_quoted]
  rfl

theorem readMember_lifetime (members : Members) (h : members.lifetime = none) (n : UInt64)
    {stop : UInt8} (hstop : Number.ends stop = true) (rest : List UInt8) :
    readMember members (Quoted.written "expires_in" ++
        0x3a :: (encode (Nat.toDigits 10 n.toNat) ++ stop :: rest)) =
      .ok (⟨members.token, some n⟩, stop :: rest) := by
  rw [readMember, Quoted.read_written]
  change (if members.lifetime.isSome then _ else
    (readNatural (encode (Nat.toDigits 10 n.toNat) ++ stop :: rest)).map fun read =>
      ((⟨members.token, some read.1⟩ : Members), read.2)) = _
  rw [h, readNatural_toDigits n hstop]
  rfl

def lifetimeMember (lifetime : UInt64) : String × List Char :=
  ("expires_in", Nat.toDigits 10 lifetime.toNat)

theorem readMembers_lifetime (members : Members) (h : members.lifetime = none) (n : UInt64)
    (fuel : Nat) :
    readMembers (fuel + 1) members (writtenMembers (lifetimeMember n) [] ++ [0x7d]) =
      .ok (⟨members.token, some n⟩, []) := by
  rw [writtenMembers, List.append_assoc, List.cons_append]
  exact readMembers_last (readMember_lifetime members h n (by decide) []) fuel

theorem ofJson_object (octets : List UInt8) :
    ofJson (0x7b :: 0x22 :: octets) = (do
      let (members, rest) ← readMembers (octets.length + 1) ⟨none, none⟩ octets
      finish members.resource rest) := rfl

theorem ofJson_json (resource : Resource) : ofJson (encode resource.json) = .ok resource := by
  obtain ⟨token, lifetime⟩ := resource
  cases token with
  | none =>
    rw [show json ⟨none, lifetime⟩ = object [lifetimeMember lifetime] from rfl, encode_object,
      ofJson_object, readMembers_lifetime _ rfl]
    rfl
  | some token =>
    rw [show json ⟨some token, lifetime⟩ =
        object [member ("access_token", token.text), lifetimeMember lifetime] from rfl,
      encode_object, ofJson_object]
    -- two members, so there is fuel for a second one
    obtain ⟨fuel, hfuel⟩ : ∃ fuel, (writtenMembers (member ("access_token", token.text))
        [lifetimeMember lifetime] ++ [0x7d]).length = fuel + 1 := ⟨_, List.length_append⟩
    rw [hfuel, writtenMembers, List.append_assoc, List.cons_append, List.append_assoc,
      List.cons_append, List.cons_append, member,
      readMembers_more (readMember_token ⟨none, none⟩ rfl token.text _),
      readMembers_lifetime _ rfl]
    rfl

end Resource

/-- A resource is read back from its own text; so is what any other text was read as, and writing
it again gives the same text. The same goes for the text of a credential of any kind, which is
written in full: no two share theirs. -/
theorem serializations_read_back :
    (∀ resource : Resource, Resource.ofJson (encode resource.json) = .ok resource) ∧
    (∀ octets resource, Resource.ofJson octets = .ok resource →
      Resource.ofJson (encode resource.json) = .ok resource ∧
      (Resource.ofJson (encode resource.json)).map Resource.json = .ok resource.json) ∧
    ∀ kind,
      (∀ c : Credential kind, (stringOf (encode (quoted c.text))).map Credential.mk = .ok c) ∧
      (∀ octets (c : Credential kind), (stringOf octets).map Credential.mk = .ok c →
        (stringOf (encode (quoted c.text))).map Credential.mk = .ok c ∧
        (stringOf (encode (quoted c.text))).map quoted = .ok (quoted c.text)) ∧
      Function.Injective fun c : Credential kind => quoted c.text := by
  have hcredential {kind} (c : Credential kind) :
      (stringOf (encode (quoted c.text))).map Credential.mk = .ok c := by
    rw [stringOf_quoted]
    rfl
  refine ⟨Resource.ofJson_json, fun _ resource _ => ⟨Resource.ofJson_json resource, ?_⟩,
    fun kind => ⟨hcredential, fun _ c _ => ⟨hcredential c, ?_⟩, fun a b h => ?_⟩⟩
  · rw [Resource.ofJson_json]
    rfl
  · rw [stringOf_quoted]
    rfl
  · have hread := hcredential a
    rw [show quoted a.text = quoted b.text from h, hcredential b] at hread
    exact (Except.ok.inj hread).symm

/-- An array after a blank, and a token with an escape. -/
theorem serializations_read_back_other :
    (Resource.ofJson (encode " [null, 7]".toList) = .ok ⟨none, 7⟩ ∧
      Resource.ofJson (encode (Resource.json ⟨none, 7⟩)) = .ok ⟨none, 7⟩) ∧
    (stringOf (encode " \"\\u0041\"".toList)).map Credential.mk = .ok (⟨"A"⟩ : AccessToken) ∧
      (stringOf (encode (quoted "A"))).map Credential.mk = .ok (⟨"A"⟩ : AccessToken) := by
  have harray : Resource.ofJson (encode " [null, 7]".toList) = .ok ⟨none, 7⟩ := by
    decide +kernel
  have hescape : (stringOf (encode " \"\\u0041\"".toList)).map Credential.mk =
      .ok (⟨"A"⟩ : AccessToken) := by decide +kernel
  exact ⟨⟨harray, (serializations_read_back.2.1 _ _ harray).1⟩, hescape,
    ((serializations_read_back.2.2 .accessToken).2.1 _ ⟨"A"⟩ hescape).1⟩

end TokenKeeper
