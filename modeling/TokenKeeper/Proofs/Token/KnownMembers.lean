import TokenKeeper.Proofs.Json.Skip
import TokenKeeper.Proofs.Json.Values
import TokenKeeper.Token.Resource
/-! What an issuer answers depends on its two known members only. The others are passed over, and
the known ones come at most once each, in any order. -/
namespace TokenKeeper
open Json
open Text.Utf8 (encode)

structure Json.Entry extends Member where
  text : String
  spells : Piece.Spell name text
  valid : IsValue item.value

structure Json.Element extends Item where
  valid : IsValue value

def Json.Member.body (member : Member) : List UInt8 :=
  member.name.flatMap Piece.octets ++ 0x22 :: (member.gap.1 ++ 0x3a :: member.item.octets)

theorem Json.Member.octets_eq (member : Member) :
    member.octets = member.lead.1 ++ 0x22 :: member.body := by
  simp only [octets, body, Piece.quote, List.cons_append, List.append_assoc, List.nil_append]

namespace Resource
variable {known known' : Members} {entry : Entry} {entries : List Entry} {rest rest' : List UInt8}

def valuesOf (name : String) (entries : List Entry) : List (List UInt8) :=
  (entries.filter (·.text = name)).map (·.item.value)

inductive AtMostOnce {α : Type} (means : List UInt8 → α → Prop) (default : α) :
    List (List UInt8) → α → Prop where
  | missing : AtMostOnce means default [] default
  | once {value a} (h : means value a) : AtMostOnce means default [value] a

/-- The resource that is described by these values for the token and these for the lifetime. -/
structure Described (tokens lifetimes : List (List UInt8)) (resource : Resource) : Prop where
  token : AtMostOnce IsText none tokens (resource.token.map (·.text))
  lifetime : AtMostOnce IsNatural 0 lifetimes resource.lifetime

section Reading

inductive Takes (known : Members) (entry : Entry) : Members → Prop where
  | token {text} (name : entry.text = "access_token") (first : known.token = none)
      (means : IsText entry.item.value text) : Takes known entry ⟨some text, known.lifetime⟩
  | lifetime {n} (name : entry.text = "expires_in") (first : known.lifetime = none)
      (means : IsNatural entry.item.value n) : Takes known entry ⟨known.token, some n⟩
  | other (token : entry.text ≠ "access_token") (lifetime : entry.text ≠ "expires_in") :
      Takes known entry known

theorem readColon_gap (gap : Blanks) (rest : List UInt8) :
    readColon (gap.1 ++ 0x3a :: rest) = .ok rest := by
  unfold readColon
  rw [skipBlanks_blanks, skipBlanks_cons rfl]
  rfl

theorem map_eq_ok {α β ε : Type} {f : α → β} {x : Except ε α} {b : β} :
    x.map f = .ok b ↔ ∃ a, x = .ok a ∧ f a = b := by
  cases x with
  | error fault => exact ⟨nofun, fun ⟨_, failed, _⟩ => by cases failed⟩
  | ok a => exact ⟨fun same => ⟨a, rfl, Except.ok.inj same⟩, fun ⟨_, rfl, same⟩ => same ▸ rfl⟩

section Kinds
variable (known : Members) (entry : Entry) (rest : List UInt8)

theorem read_name : Quoted.read (entry.body ++ rest) =
    .ok (entry.text, entry.gap.1 ++ 0x3a :: (entry.item.octets ++ rest)) := by
  rw [Member.body, List.append_assoc, List.cons_append, List.append_assoc, List.cons_append]
  exact (read_pieces _ _).mpr ⟨rfl, entry.spells⟩

theorem readMember_isToken (name : entry.text = "access_token") :
    readMember known (entry.body ++ rest) =
      if known.token.isSome then .error .mismatch
      else (readOptionalString (entry.item.octets ++ rest)).map fun read =>
        (⟨some read.1, known.lifetime⟩, read.2) := by
  unfold readMember
  simp only [read_name, bind, Except.bind, if_pos name, readColon_gap]
  split
  · rfl
  · cases readOptionalString (entry.item.octets ++ rest) <;> rfl

theorem readMember_isLifetime (name : entry.text = "expires_in") :
    readMember known (entry.body ++ rest) =
      if known.lifetime.isSome then .error .mismatch
      else (readNatural (entry.item.octets ++ rest)).map fun read =>
        (⟨known.token, some read.1⟩, read.2) := by
  have other : entry.text ≠ "access_token" := by
    rw [name]
    decide
  unfold readMember
  simp only [read_name, bind, Except.bind, if_neg other, if_pos name, readColon_gap]
  split
  · rfl
  · cases readNatural (entry.item.octets ++ rest) <;> rfl

theorem readMember_isOther (token : entry.text ≠ "access_token")
    (lifetime : entry.text ≠ "expires_in") (stops : Stops rest) :
    readMember known (entry.body ++ rest) = .ok (known, entry.item.trail.1 ++ rest) := by
  unfold readMember
  simp only [read_name, bind, Except.bind, if_neg token, if_neg lifetime, readColon_gap,
    Skip.skip_item entry.valid stops]

end Kinds

theorem readMember_entry (stops : Stops rest) :
    readMember known (entry.body ++ rest) = .ok (known', rest') ↔
      rest' = entry.item.trail.1 ++ rest ∧ Takes known entry known' := by
  by_cases token : entry.text = "access_token"
  · have apart : entry.text ≠ "expires_in" := fun lifetime =>
      absurd (token.symm.trans lifetime) (by decide)
    rw [readMember_isToken known entry rest token]
    constructor
    · intro read
      split at read
      · cases read
      · rename_i first
        obtain ⟨⟨text, left⟩, read, same⟩ := map_eq_ok.mp read
        obtain ⟨rfl, means⟩ := (readOptionalString_item entry.valid).mp read
        obtain ⟨rfl, rfl⟩ := Prod.mk.inj same
        exact ⟨rfl, .token token (by simpa using first) means⟩
    · rintro ⟨rfl, takes⟩
      cases takes with
      | token _ first means =>
        have read : readOptionalString (entry.item.octets ++ rest) = .ok (_, _) :=
          (readOptionalString_item entry.valid).mpr ⟨rfl, means⟩
        rw [first, read]
        rfl
      | lifetime lifetime => exact absurd lifetime apart
      | other no => exact absurd token no
  by_cases lifetime : entry.text = "expires_in"
  · rw [readMember_isLifetime known entry rest lifetime]
    constructor
    · intro read
      split at read
      · cases read
      · rename_i first
        obtain ⟨⟨n, left⟩, read, same⟩ := map_eq_ok.mp read
        obtain ⟨rfl, means⟩ := (readNatural_item entry.valid stops).mp read
        obtain ⟨rfl, rfl⟩ := Prod.mk.inj same
        exact ⟨rfl, .lifetime lifetime (by simpa using first) means⟩
    · rintro ⟨rfl, takes⟩
      cases takes with
      | token name => exact absurd name token
      | lifetime _ first means =>
        have read := (readNatural_item entry.valid stops).mpr ⟨rfl, means⟩
        rw [first, read]
        rfl
      | other _ no => exact absurd lifetime no
  · rw [readMember_isOther known entry rest token lifetime stops]
    constructor
    · intro read
      obtain ⟨rfl, rfl⟩ := Prod.mk.inj (Except.ok.inj read)
      exact ⟨rfl, .other token lifetime⟩
    · rintro ⟨rfl, takes⟩
      cases takes with
      | token name => exact absurd name token
      | lifetime name => exact absurd name lifetime
      | other => rfl

inductive TakesAll : Members → List Entry → Members → Prop where
  | nil (members : Members) : TakesAll members [] members
  | cons {before next last entry entries} (first : Takes before entry next)
      (others : TakesAll next entries last) : TakesAll before (entry :: entries) last

def others (entries : List Entry) (rest : List UInt8) : List UInt8 :=
  behind 0x7d (entries.map fun entry => entry.octets) rest

theorem others_stop (entries : List Entry) (rest : List UInt8) : Stops (others entries rest) :=
  stops_behind (by decide) _ _

theorem others_cons (entry : Entry) (entries : List Entry) (rest : List UInt8) :
    others (entry :: entries) rest =
      0x2c :: (entry.lead.1 ++ 0x22 :: (entry.body ++ others entries rest)) := by
  rw [others, List.map_cons, behind_cons, Member.octets_eq, List.append_assoc, List.cons_append]
  rfl

def readOn (fuel : Nat) (known : Members) (octets : List UInt8) :
    Except Fault (Members × List UInt8) :=
  match skipBlanks octets with
  | [] => .error .ended
  | octet :: rest =>
    if octet = 0x7d then .ok (known, rest)
    else if octet = 0x2c then
      match skipBlanks rest with
      | [] => .error .ended
      | octet :: rest =>
        if octet = 0x22 then readMembers fuel known rest else .error .malformed
    else .error .malformed

theorem readMembers_step (fuel : Nat) (known : Members) (octets : List UInt8) :
    readMembers (fuel + 1) known octets =
      (readMember known octets).bind fun read => readOn fuel read.1 read.2 := rfl

theorem readOn_end (fuel : Nat) (known : Members) (blanks : Blanks) (rest : List UInt8) :
    readOn fuel known (blanks.1 ++ others [] rest) = .ok (known, rest) := by
  unfold readOn
  rw [skipBlanks_blanks]
  rfl

theorem readOn_more (fuel : Nat) (known : Members) (blanks : Blanks) (entry : Entry)
    (entries : List Entry) (rest : List UInt8) :
    readOn fuel known (blanks.1 ++ others (entry :: entries) rest) =
      readMembers fuel known (entry.body ++ others entries rest) := by
  have next : skipBlanks (entry.lead.1 ++ 0x22 :: (entry.body ++ others entries rest)) =
      0x22 :: (entry.body ++ others entries rest) := by
    rw [skipBlanks_blanks, skipBlanks_cons rfl]
  unfold readOn
  rw [skipBlanks_blanks, others_cons, skipBlanks_cons rfl]
  simp only [next]
  rfl

theorem readMembers_entries {fuel : Nat} (enough : entries.length < fuel) :
    readMembers fuel known (entry.body ++ others entries rest) = .ok (known', rest') ↔
      rest' = rest ∧ TakesAll known (entry :: entries) known' := by
  induction entries generalizing fuel known entry with
  | nil =>
    obtain ⟨fuel, rfl⟩ := Nat.exists_eq_add_one_of_ne_zero (Nat.ne_of_gt enough)
    rw [readMembers_step]
    constructor
    · intro read
      cases member : readMember known (entry.body ++ others [] rest) with
      | error fault =>
        rw [member] at read
        cases read
      | ok result =>
        obtain ⟨next, left⟩ := result
        obtain ⟨rfl, takes⟩ := (readMember_entry (others_stop [] rest)).mp member
        rw [member] at read
        have last := (readOn_end fuel next entry.item.trail rest).symm.trans read
        obtain ⟨rfl, rfl⟩ := Prod.mk.inj (Except.ok.inj last)
        exact ⟨rfl, .cons takes (.nil _)⟩
    · rintro ⟨rfl, takes⟩
      cases takes with
      | cons first others =>
        cases others
        rw [(readMember_entry (others_stop [] rest')).mpr ⟨rfl, first⟩]
        exact readOn_end fuel known' entry.item.trail rest'
  | cons next entries ih =>
    obtain ⟨fuel, rfl⟩ := Nat.exists_eq_add_one_of_ne_zero (Nat.ne_of_gt (Nat.zero_lt_of_lt enough))
    have enough := Nat.lt_of_succ_lt_succ enough
    rw [readMembers_step]
    constructor
    · intro read
      cases member : readMember known (entry.body ++ others (next :: entries) rest) with
      | error fault =>
        rw [member] at read
        cases read
      | ok result =>
        obtain ⟨middle, left⟩ := result
        obtain ⟨rfl, takes⟩ := (readMember_entry (others_stop (next :: entries) rest)).mp member
        rw [member] at read
        have others := (readOn_more fuel middle entry.item.trail next entries rest).symm.trans read
        obtain ⟨rfl, takes_others⟩ := (ih enough).mp others
        exact ⟨rfl, .cons takes takes_others⟩
    · rintro ⟨rfl, takes⟩
      cases takes with
      | cons first others =>
        rw [(readMember_entry (others_stop (next :: entries) rest')).mpr ⟨rfl, first⟩]
        exact (readOn_more fuel _ entry.item.trail next entries rest').trans
          ((ih enough).mpr ⟨rfl, others⟩)

theorem length_le_others (entries : List Entry) (rest : List UInt8) :
    entries.length ≤ (others entries rest).length := by
  induction entries with
  | nil => exact Nat.zero_le _
  | cons entry entries ih =>
    simp only [others_cons, List.length_cons, List.length_append]
    omega

theorem readObject_entries (inner : Blanks) (entries : List Entry) :
    readObject (inner.1 ++ (commas (entries.map fun entry => entry.octets) ++ 0x7d :: rest)) =
        .ok (known', rest') ↔ rest' = rest ∧ TakesAll ⟨none, none⟩ entries known' := by
  unfold readObject
  cases entries with
  | nil =>
    rw [skipBlanks_blanks, List.map_nil]
    have empty : commas [] ++ 0x7d :: rest = 0x7d :: rest := rfl
    rw [empty, skipBlanks_cons rfl]
    constructor
    · intro read
      obtain ⟨rfl, rfl⟩ := Prod.mk.inj (Except.ok.inj read)
      exact ⟨rfl, .nil _⟩
    · rintro ⟨rfl, takes⟩
      cases takes
      rfl
  | cons entry entries =>
    rw [skipBlanks_blanks, List.map_cons, commas_behind, Member.octets_eq, List.append_assoc,
      List.cons_append, skipBlanks_blanks, skipBlanks_cons rfl]
    refine readMembers_entries (?_ : _ < (entry.body ++ others entries rest).length + 1)
    have enough := length_le_others entries rest
    rw [List.length_append]
    omega

end Reading
end Resource
end TokenKeeper
