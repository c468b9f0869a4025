import TokenKeeper.Proofs.Token.KnownMembers
/-! What a whole response is read as: an object by its known members, whatever stands around and
between them, and an array by its place for each of them. -/
namespace TokenKeeper
open Json

namespace Resource
variable {known known' : Members} {entries : List Entry} {resource : Resource}
  {rest rest' : List UInt8}

section Given
variable {α : Type} {means : List UInt8 → α → Prop}

inductive Given (means : List UInt8 → α → Prop) :
    Option α → List (List UInt8) → Option α → Prop where
  | nothing (before : Option α) : Given means before [] before
  | once {value a} (h : means value a) : Given means none [value] (some a)

theorem given_nil {before after : Option α} : Given means before [] after ↔ after = before :=
  ⟨fun given => by cases given; rfl, fun same => by rw [same]; exact .nothing before⟩

theorem given_some {a : α} {values : List (List UInt8)} {after : Option α} :
    Given means (some a) values after ↔ values = [] ∧ after = some a := by
  constructor
  · intro given
    cases given
    exact ⟨rfl, rfl⟩
  · rintro ⟨rfl, rfl⟩
    exact .nothing _

theorem given_cons {before after : Option α} {value : List UInt8} {values : List (List UInt8)} :
    Given means before (value :: values) after ↔
      before = none ∧ ∃ a, means value a ∧ Given means (some a) values after := by
  constructor
  · intro given
    cases given with
    | once h => exact ⟨rfl, _, h, .nothing _⟩
  · rintro ⟨rfl, a, h, given⟩
    obtain ⟨rfl, rfl⟩ := given_some.mp given
    exact .once h

theorem atMostOnce_iff {default : α} {values : List (List UInt8)} {a : α} :
    AtMostOnce means default values a ↔
      ∃ after, Given means none values after ∧ a = after.getD default := by
  constructor
  · intro once
    cases once with
    | missing => exact ⟨none, .nothing none, rfl⟩
    | once h => exact ⟨some a, .once h, rfl⟩
  · rintro ⟨after, given, rfl⟩
    cases given with
    | nothing => exact .missing
    | once h => exact .once h

theorem AtMostOnce.perm {default : α} {values values' : List (List UInt8)} {a : α}
    (once : AtMostOnce means default values a) (perm : values.Perm values') :
    AtMostOnce means default values' a := by
  cases once with
  | missing =>
    obtain rfl := List.nil_perm.mp perm
    exact .missing
  | once h =>
    obtain rfl := List.singleton_perm.mp perm
    exact .once h

end Given

theorem takesAll_iff : TakesAll known entries known' ↔
    Given IsText known.token (valuesOf "access_token" entries) known'.token ∧
      Given IsNatural known.lifetime (valuesOf "expires_in" entries) known'.lifetime := by
  induction entries generalizing known with
  | nil =>
    obtain ⟨token, lifetime⟩ := known
    obtain ⟨token', lifetime'⟩ := known'
    simp only [valuesOf, List.filter_nil, List.map_nil, given_nil]
    constructor
    · intro takes
      cases takes
      exact ⟨rfl, rfl⟩
    · rintro ⟨rfl, rfl⟩
      exact .nil _
  | cons entry entries ih =>
    have found {name : String} (same : entry.text = name) :
        valuesOf name (entry :: entries) = entry.item.value :: valuesOf name entries := by
      simp [valuesOf, same]
    have passed {name : String} (other : entry.text ≠ name) :
        valuesOf name (entry :: entries) = valuesOf name entries := by
      simp [valuesOf, other]
    constructor
    · intro takes
      cases takes with
      | cons first others =>
        obtain ⟨tokens, lifetimes⟩ := ih.mp others
        cases first with
        | token name first means =>
          have other : entry.text ≠ "expires_in" := fun lifetime =>
            absurd (name.symm.trans lifetime) (by decide)
          rw [found name, passed other, given_cons]
          exact ⟨⟨first, _, means, tokens⟩, lifetimes⟩
        | lifetime name first means =>
          have other : entry.text ≠ "access_token" := fun token =>
            absurd (token.symm.trans name) (by decide)
          rw [found name, passed other, given_cons]
          exact ⟨tokens, ⟨first, _, means, lifetimes⟩⟩
        | other token lifetime =>
          rw [passed token, passed lifetime]
          exact ⟨tokens, lifetimes⟩
    · rintro ⟨tokens, lifetimes⟩
      by_cases token : entry.text = "access_token"
      · have other : entry.text ≠ "expires_in" := fun lifetime =>
          absurd (token.symm.trans lifetime) (by decide)
        rw [found token, given_cons] at tokens
        rw [passed other] at lifetimes
        obtain ⟨first, text, means, tokens⟩ := tokens
        exact .cons (.token token first means) (ih.mpr ⟨tokens, lifetimes⟩)
      rw [passed token] at tokens
      by_cases lifetime : entry.text = "expires_in"
      · rw [found lifetime, given_cons] at lifetimes
        obtain ⟨first, n, means, lifetimes⟩ := lifetimes
        exact .cons (.lifetime lifetime first means) (ih.mpr ⟨tokens, lifetimes⟩)
      · rw [passed lifetime] at lifetimes
        exact .cons (.other token lifetime) (ih.mpr ⟨tokens, lifetimes⟩)

theorem described_iff {tokens lifetimes : List (List UInt8)} :
    Described tokens lifetimes resource ↔ ∃ members : Members,
      Given IsText none tokens members.token ∧ Given IsNatural none lifetimes members.lifetime ∧
        resource = members.resource := by
  obtain ⟨token, lifetime⟩ := resource
  constructor
  · rintro ⟨once, once'⟩
    obtain ⟨text, given, same⟩ := atMostOnce_iff.mp once
    obtain ⟨n, given', rfl⟩ := atMostOnce_iff.mp once'
    refine ⟨⟨text, n⟩, given, given', ?_⟩
    have back : token = (token.map (·.text)).map Credential.mk := by cases token <;> rfl
    have joined : text.getD none = text.join := by cases text <;> rfl
    dsimp only at same
    rw [Members.resource, back, same, joined]
  · rintro ⟨⟨text, n⟩, given, given', same⟩
    obtain ⟨rfl, rfl⟩ := Resource.mk.inj same
    refine ⟨atMostOnce_iff.mpr ⟨text, given, ?_⟩, atMostOnce_iff.mpr ⟨n, given', rfl⟩⟩
    cases text with
    | none => rfl
    | some text => cases text <;> rfl

section Whole
variable (lead trail : Blanks)

theorem finish_blanks {α : Type} (value : α) : finish value trail.1 = .ok value := by
  have nothing : skipBlanks trail.1 = [] := by
    rw [← List.append_nil trail.1, skipBlanks_blanks]
    rfl
  rw [finish, if_pos nothing]

theorem ofJson_brace (octets : List UInt8) : ofJson (lead.1 ++ 0x7b :: octets) =
    (readObject octets).bind fun read => finish read.1.resource read.2 := by
  unfold ofJson
  rw [skipBlanks_blanks, skipBlanks_cons rfl]
  rfl

theorem ofJson_bracket (octets : List UInt8) : ofJson (lead.1 ++ 0x5b :: octets) =
    (readArray octets).bind fun read => finish read.1.resource read.2 := by
  unfold ofJson
  rw [skipBlanks_blanks, skipBlanks_cons rfl]
  rfl

theorem bind_finish {read : Except Fault (Members × List UInt8)}
    {describes : Members → Prop}
    (h : ∀ members rest, read = .ok (members, rest) ↔ rest = trail.1 ∧ describes members) :
    (read.bind fun read => finish read.1.resource read.2) = .ok resource ↔
      ∃ members, describes members ∧ resource = members.resource := by
  cases read with
  | error fault =>
    refine ⟨nofun, fun ⟨members, describes, _⟩ => ?_⟩
    cases (h members trail.1).mpr ⟨rfl, describes⟩
  | ok result =>
    obtain ⟨members, rest⟩ := result
    obtain ⟨rfl, described⟩ := (h members rest).mp rfl
    constructor
    · intro finished
      refine ⟨members, described, ?_⟩
      exact (Except.ok.inj ((finish_blanks trail _).symm.trans finished)).symm
    · rintro ⟨members', describes, rfl⟩
      obtain ⟨rfl, -⟩ := Prod.mk.inj (Except.ok.inj ((h members' trail.1).mpr ⟨rfl, describes⟩))
      exact finish_blanks trail _

/-- An object with any members, and blanks anywhere. -/
def objectResponse (inner : Blanks) (entries : List Entry) : List UInt8 :=
  lead.1 ++ (objectText inner (entries.map (·.toMember)) ++ trail.1)

def arrayResponse (inner : Blanks) (elements : List Element) : List UInt8 :=
  lead.1 ++ (arrayText inner (elements.map (·.toItem)) ++ trail.1)

theorem ofJson_objectResponse (inner : Blanks) (entries : List Entry) :
    ofJson (objectResponse lead trail inner entries) = .ok resource ↔
      Described (valuesOf "access_token" entries) (valuesOf "expires_in" entries) resource := by
  have whole : objectResponse lead trail inner entries = lead.1 ++ 0x7b ::
      (inner.1 ++ (commas (entries.map fun entry => entry.octets) ++ 0x7d :: trail.1)) := by
    have members : (entries.map (·.toMember)).map Member.octets =
      entries.map fun entry => entry.octets := List.map_map
    simp [objectResponse, objectText, members]
  rw [whole, ofJson_brace, described_iff]
  refine (bind_finish trail fun members rest => readObject_entries inner entries).trans ?_
  simp only [takesAll_iff, and_assoc]

end Whole

section Arrays
variable {element : Element} {elements : List Element}

theorem bind_eq_ok {α β ε : Type} {x : Except ε α} {f : α → Except ε β} {b : β} :
    x.bind f = .ok b ↔ ∃ a, x = .ok a ∧ f a = .ok b := by
  cases x with
  | error fault => exact ⟨nofun, fun ⟨_, failed, _⟩ => by cases failed⟩
  | ok a => exact ⟨fun done => ⟨a, rfl, done⟩, fun ⟨_, same, done⟩ => by cases same; exact done⟩

theorem skipBlanks_element (element : Element) (rest : List UInt8) : ∃ octet others,
    skipBlanks (element.octets ++ rest) = octet :: others ∧ octet ≠ 0x5d := by
  obtain ⟨octet, others, value, blank, bracket⟩ := Skip.begins element.valid
  refine ⟨octet, others ++ (element.trail.1 ++ rest), ?_, bracket⟩
  rw [Item.octets, List.append_assoc, skipBlanks_blanks, value, List.append_assoc,
    List.cons_append, skipBlanks_cons blank]

def readSecond (token : Option String) (octets : List UInt8) :
    Except Fault (Members × List UInt8) :=
  (readComma octets).bind fun comma =>
    match comma.1 with
    | none => .ok (⟨some token, none⟩, comma.2)
    | some rest => (readNatural rest).bind fun lifetime =>
      match skipBlanks lifetime.2 with
      | [] => .error .ended
      | octet :: rest =>
        if octet = 0x5d then .ok (⟨some token, some lifetime.1⟩, rest) else .error .malformed

theorem readArray_first (inner : Blanks) (element : Element) (rest : List UInt8) :
    readArray (inner.1 ++ (element.octets ++ rest)) =
      (readOptionalString (element.octets ++ rest)).bind fun token =>
        readSecond token.1 token.2 := by
  obtain ⟨octet, others, begins, bracket⟩ := skipBlanks_element element rest
  unfold readArray
  simp only [skipBlanks_blanks, begins, if_neg bracket, readOptionalString_blanks]
  rfl

def following (elements : List Element) (rest : List UInt8) : List UInt8 :=
  behind 0x5d (elements.map fun element => element.octets) rest

theorem following_stops (elements : List Element) (rest : List UInt8) :
    Stops (following elements rest) := stops_behind (by decide) _ _

theorem readComma_end (blanks : Blanks) (rest : List UInt8) :
    readComma (blanks.1 ++ following [] rest) = .ok (none, rest) := by
  unfold readComma
  rw [skipBlanks_blanks]
  rfl

theorem readComma_more (blanks : Blanks) (element : Element) (elements : List Element)
    (rest : List UInt8) :
    readComma (blanks.1 ++ following (element :: elements) rest) =
      .ok (some (element.octets ++ following elements rest),
        element.octets ++ following elements rest) := by
  obtain ⟨octet, others, begins, bracket⟩ :=
    skipBlanks_element element (following elements rest)
  have comma : following (element :: elements) rest =
      0x2c :: (element.octets ++ following elements rest) := behind_cons _ _ _ _
  unfold readComma
  rw [skipBlanks_blanks, comma, skipBlanks_cons rfl]
  simp only [begins, if_neg bracket]
  rfl

theorem readSecond_end (token : Option String) (blanks : Blanks) (rest : List UInt8) :
    readSecond token (blanks.1 ++ following [] rest) = .ok (⟨some token, none⟩, rest) := by
  rw [readSecond, readComma_end]
  rfl

theorem readSecond_more (token : Option String) (blanks : Blanks) :
    readSecond token (blanks.1 ++ following (element :: elements) rest) = .ok (known', rest') ↔
      rest' = rest ∧ elements = [] ∧
        ∃ n, IsNatural element.value n ∧ known' = ⟨some token, some n⟩ := by
  rw [readSecond, readComma_more]
  change Except.bind (readNatural (element.octets ++ following elements rest)) _ = _ ↔ _
  refine Iff.trans bind_eq_ok ?_
  constructor
  · rintro ⟨⟨n, left⟩, read, closes⟩
    obtain ⟨rfl, means⟩ :=
      (readNatural_item element.valid (following_stops elements rest)).mp read
    dsimp only at closes
    rw [skipBlanks_blanks] at closes
    cases elements with
    | nil =>
      obtain ⟨rfl, rfl⟩ := Prod.mk.inj (Except.ok.inj closes)
      exact ⟨rfl, rfl, n, means, rfl⟩
    | cons third more =>
      rw [following, List.map_cons, behind_cons, skipBlanks_cons rfl] at closes
      cases closes
  · rintro ⟨rfl, rfl, n, means, rfl⟩
    refine ⟨(n, element.trail.1 ++ following [] rest'), ?_, ?_⟩
    · exact (readNatural_item element.valid (following_stops [] rest')).mpr ⟨rfl, means⟩
    · dsimp only
      rw [skipBlanks_blanks]
      rfl

theorem readArray_elements (inner : Blanks) (elements : List Element) :
    readArray (inner.1 ++ (commas (elements.map fun element => element.octets) ++ 0x5d :: rest)) =
        .ok (known', rest') ↔ rest' = rest ∧
      Given IsText none ((elements.map (·.value)).take 1) known'.token ∧
        Given IsNatural none ((elements.map (·.value)).drop 1) known'.lifetime := by
  obtain ⟨token', lifetime'⟩ := known'
  cases elements with
  | nil =>
    have empty : readArray (inner.1 ++ (commas (([] : List Element).map fun element =>
        element.octets) ++ 0x5d :: rest)) = .ok (⟨none, none⟩, rest) := by
      unfold readArray
      rw [skipBlanks_blanks]
      rfl
    rw [empty]
    simp only [List.map_nil, List.take_nil, List.drop_nil, given_nil]
    constructor
    · intro same
      obtain ⟨same, rfl⟩ := Prod.mk.inj (Except.ok.inj same)
      cases same
      exact ⟨rfl, rfl, rfl⟩
    · rintro ⟨rfl, rfl, rfl⟩
      rfl
  | cons first elements =>
    have token_given : Given IsText none (((first :: elements).map (·.value)).take 1) token' ↔
        ∃ text, IsText first.value text ∧ token' = some text := by
      simp only [List.map_cons, List.take_succ_cons, List.take_zero, given_cons, given_some,
        true_and]
    rw [token_given, List.map_cons, List.map_cons, commas_behind, readArray_first]
    refine Iff.trans bind_eq_ok ?_
    have stops := following_stops elements rest
    constructor
    · rintro ⟨⟨text, left⟩, read, goes_on⟩
      obtain ⟨rfl, means⟩ := (readOptionalString_item first.valid).mp read
      cases elements with
      | nil =>
        have last := (readSecond_end text first.trail rest).symm.trans goes_on
        obtain ⟨same, rfl⟩ := Prod.mk.inj (Except.ok.inj last)
        cases same
        exact ⟨rfl, ⟨text, means, rfl⟩, .nothing none⟩
      | cons second more =>
        obtain ⟨rfl, rfl, n, means', same⟩ := (readSecond_more text first.trail).mp goes_on
        cases same
        exact ⟨rfl, ⟨text, means, rfl⟩, .once means'⟩
    · rintro ⟨rfl, ⟨text, means, rfl⟩, lifetime⟩
      refine ⟨(text, first.trail.1 ++ following elements rest'),
        (readOptionalString_item first.valid).mpr ⟨rfl, means⟩, ?_⟩
      cases elements with
      | nil =>
        obtain rfl := given_nil.mp lifetime
        exact readSecond_end text first.trail rest'
      | cons second more =>
        rw [List.map_cons, List.drop_succ_cons, List.drop_zero, given_cons] at lifetime
        obtain ⟨-, n, means', last⟩ := lifetime
        obtain ⟨nothing, rfl⟩ := given_some.mp last
        obtain rfl := List.map_eq_nil_iff.mp nothing
        exact (readSecond_more text first.trail).mpr ⟨rfl, rfl, n, means', rfl⟩

theorem ofJson_arrayResponse (lead trail inner : Blanks) (elements : List Element) :
    ofJson (arrayResponse lead trail inner elements) = .ok resource ↔
      Described ((elements.map (·.value)).take 1) ((elements.map (·.value)).drop 1) resource := by
  have items : (elements.map (·.toItem)).map Item.octets =
    elements.map fun element => element.octets := List.map_map
  have whole : arrayResponse lead trail inner elements = lead.1 ++ 0x5b ::
      (inner.1 ++ (commas (elements.map fun element => element.octets) ++ 0x5d :: trail.1)) := by
    simp [arrayResponse, arrayText, items]
  rw [whole, ofJson_bracket, described_iff]
  refine (bind_finish trail fun members rest => readArray_elements inner elements).trans ?_
  simp only [and_assoc]

end Arrays

theorem toOption_eq {α ε ε' : Type} {x : Except ε α} {y : Except ε' α}
    (h : ∀ a, x = .ok a ↔ y = .ok a) : x.toOption = y.toOption := by
  cases x with
  | ok a =>
    rw [(h a).mp rfl]
    rfl
  | error fault =>
    cases y with
    | error => rfl
    | ok a => cases (h a).mpr rfl

theorem not_described {values : List (List UInt8)} (many : 2 < values.length) :
    ¬Described (values.take 1) (values.drop 1) resource := by
  rintro ⟨-, lifetime⟩
  generalize left : values.drop 1 = lifetimes at lifetime
  generalize resource.lifetime = n at lifetime
  have length := congrArg List.length left
  rw [List.length_drop] at length
  cases lifetime with
  | missing => rw [List.length_nil] at length; omega
  | once => rw [List.length_singleton] at length; omega

end Resource

section Samples

def Json.noBlanks : Blanks := ⟨[], nofun⟩

def Json.Piece.plains (octets : List UInt8)
    (h : ∀ octet ∈ octets, Quoted.isPlain octet = true) : List Piece := octets.pmap .plain h

theorem Json.Piece.meaning_plains (octets : List UInt8)
    (h : ∀ octet ∈ octets, Quoted.isPlain octet = true) :
    meaning (plains octets h) = some octets := by
  induction octets with
  | nil => rfl
  | cons octet octets ih =>
    have others := ih fun o member => h o (List.mem_cons_of_mem _ member)
    change (meaning (plains octets _)).map ([octet] ++ ·) = _
    rw [others]
    rfl

def Json.Entry.plain (text : String)
    (h : ∀ octet ∈ Text.Utf8.encode text.toList, Quoted.isPlain octet = true)
    {value : List UInt8} (valid : IsValue value) : Entry where
  lead := noBlanks
  name := Piece.plains _ h
  gap := noBlanks
  item := ⟨noBlanks, value, noBlanks⟩
  text := text
  spells := Piece.meaning_plains _ h
  valid := valid

def Json.huge : Numeral where
  negative := false
  whole := ⟨[1], by decide⟩
  alone := by decide
  fraction := none
  exponent := some ⟨0x65, .inl rfl, none, ⟨[9, 9, 9], by decide⟩⟩

def Json.seven : Numeral where
  negative := false
  whole := ⟨[7], by decide⟩
  alone := by decide
  fraction := none
  exponent := none

def Json.strange : List Item :=
  [⟨noBlanks, huge.octets, noBlanks⟩,
    ⟨noBlanks, Piece.quote [.unit ⟨0x64, rfl⟩ ⟨0x38, rfl⟩ ⟨0x30, rfl⟩ ⟨0x30, rfl⟩], noBlanks⟩]

theorem Json.isValue_strange : IsValue (arrayText noBlanks strange) := by
  refine .array _ fun item member => ?_
  rcases List.mem_pair.mp member with rfl | rfl
  · exact .number _
  · exact .string _

def Json.tokenEntry : Entry :=
  .plain "access_token" (by decide +kernel) (.string (Piece.plains [0x78] (by decide +kernel)))

def Json.lifetimeEntry : Entry := .plain "expires_in" (by decide +kernel) (.number seven)

def Json.scopeEntry : Entry := .plain "scope" (by decide +kernel) isValue_strange

end Samples

open Resource in
/-- An object is read, whatever blanks and other members it has and however its names are spelled,
if its known members are given at most once each and with the right values, and then as what these
say. So only the values of the known members matter, in any order. An array is read as the object
that gives its elements in turn, and not at all if there are more than two. -/
theorem responses_depend_on_known_members (lead trail inner : Blanks) :
    (∀ entries resource, ofJson (objectResponse lead trail inner entries) = .ok resource ↔
      Described (valuesOf "access_token" entries) (valuesOf "expires_in" entries) resource) ∧
    (∀ lead' trail' inner' entries entries',
      (valuesOf "access_token" entries).Perm (valuesOf "access_token" entries') →
      (valuesOf "expires_in" entries).Perm (valuesOf "expires_in" entries') →
      (ofJson (objectResponse lead trail inner entries)).toOption =
        (ofJson (objectResponse lead' trail' inner' entries')).toOption) ∧
    ∀ elements : List Element,
      (∀ lead' trail' inner' entries,
        valuesOf "access_token" entries = (elements.map (·.value)).take 1 →
        valuesOf "expires_in" entries = (elements.map (·.value)).drop 1 →
        (ofJson (arrayResponse lead trail inner elements)).toOption =
          (ofJson (objectResponse lead' trail' inner' entries)).toOption) ∧
      (2 < elements.length →
        ∃ fault, ofJson (arrayResponse lead trail inner elements) = .error fault) := by
  refine ⟨fun entries resource => ofJson_objectResponse lead trail inner entries,
    fun lead' trail' inner' entries entries' tokens lifetimes => ?_, fun elements => ⟨?_, ?_⟩⟩
  · refine toOption_eq fun resource => ?_
    rw [ofJson_objectResponse, ofJson_objectResponse]
    constructor
    · exact fun ⟨token, lifetime⟩ => ⟨token.perm tokens, lifetime.perm lifetimes⟩
    · exact fun ⟨token, lifetime⟩ => ⟨token.perm tokens.symm, lifetime.perm lifetimes.symm⟩
  · intro lead' trail' inner' entries tokens lifetimes
    refine toOption_eq fun resource => ?_
    rw [ofJson_arrayResponse, ofJson_objectResponse, tokens, lifetimes]
  · intro many
    cases read : ofJson (arrayResponse lead trail inner elements) with
    | error fault => exact ⟨fault, rfl⟩
    | ok resource =>
      have described := (ofJson_arrayResponse lead trail inner elements).mp read
      exact absurd described (not_described (by rwa [List.length_map]))

open Resource in
/-- Another member, another order and other brackets make no difference. -/
theorem responses_depend_on_known_members_mixed :
    objectResponse noBlanks noBlanks noBlanks [scopeEntry, lifetimeEntry, tokenEntry] =
      Text.Utf8.encode ("\x7b\"scope\":[1e999,\"\\ud800\"],\"expires_in\":7," ++
        "\"access_token\":\"x\"\x7d").toList ∧
    ofJson (objectResponse noBlanks noBlanks noBlanks [tokenEntry, lifetimeEntry]) =
      .ok ⟨some ⟨"x"⟩, 7⟩ ∧
    (ofJson (objectResponse noBlanks noBlanks noBlanks
        [scopeEntry, lifetimeEntry, tokenEntry])).toOption =
      (ofJson (objectResponse noBlanks noBlanks noBlanks
        [tokenEntry, lifetimeEntry])).toOption ∧
    (ofJson (arrayResponse noBlanks noBlanks noBlanks
        [⟨tokenEntry.item, tokenEntry.valid⟩,
          ⟨lifetimeEntry.item, lifetimeEntry.valid⟩])).toOption =
      (ofJson (objectResponse noBlanks noBlanks noBlanks
        [tokenEntry, lifetimeEntry])).toOption ∧
    ∃ fault, ofJson (arrayResponse noBlanks noBlanks noBlanks
      [⟨tokenEntry.item, tokenEntry.valid⟩, ⟨lifetimeEntry.item, lifetimeEntry.valid⟩,
        ⟨scopeEntry.item, scopeEntry.valid⟩]) = .error fault := by
  obtain ⟨described, same, arrays⟩ :=
    responses_depend_on_known_members noBlanks noBlanks noBlanks
  have token : valuesOf "access_token" [tokenEntry, lifetimeEntry] = [tokenEntry.item.value] := by
    decide +kernel
  have lifetime :
      valuesOf "expires_in" [tokenEntry, lifetimeEntry] = [lifetimeEntry.item.value] := by
    decide +kernel
  have seven : IsNatural lifetimeEntry.item.value 7 := by
    unfold IsNatural
    decide +kernel
  refine ⟨by decide +kernel, (described _ _).mpr ?_, same _ _ _ _ _ ?_ ?_,
    (arrays _).1 _ _ _ _ token lifetime, (arrays _).2 (by decide)⟩
  · rw [token, lifetime]
    exact ⟨.once (.string (Piece.meaning_plains _ _)), .once seven⟩
  · have mixed : valuesOf "access_token" [scopeEntry, lifetimeEntry, tokenEntry] =
      valuesOf "access_token" [tokenEntry, lifetimeEntry] := by decide +kernel
    rw [mixed]
  · have mixed : valuesOf "expires_in" [scopeEntry, lifetimeEntry, tokenEntry] =
      valuesOf "expires_in" [tokenEntry, lifetimeEntry] := by decide +kernel
    rw [mixed]

end TokenKeeper
