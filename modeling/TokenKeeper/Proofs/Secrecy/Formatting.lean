import TokenKeeper.Grant.Credentials
import TokenKeeper.Proofs.Text.Truncated
import TokenKeeper.Token.Fixed
/-! What is shown of a secret. A style that does not ask for secrets gives the same text for any
two, and one that does gives the same text for any two that begin alike and are both too long for
it. A record shows nothing of a secret but its own debug text. -/
namespace TokenKeeper

namespace Credential
variable {kind : Kind} {r : Redaction} {style : Style} {c c' : Credential kind}

structure SameFront (budget : Nat) (c c' : Credential kind) : Prop where
  long : budget < c.chars.length
  long' : budget < c'.chars.length
  front : c.chars.take (budget - 1) = c'.chars.take (budget - 1)

theorem SameFront.truncate {budget : Nat} (h : SameFront budget c c') :
    Text.truncate budget c.chars = Text.truncate budget c'.chars := by
  rw [Text.truncate_eq, Text.truncate_eq, if_neg (Nat.not_le_of_lt h.long),
    if_neg (Nat.not_le_of_lt h.long'), h.front]

theorem display_hidden (secret : kind.redaction = some r) (plain : style.alternate = false) :
    c.display style = c'.display style := by
  simp only [display, secret, plain, Bool.false_eq_true, if_false]

theorem debug_hidden (secret : kind.redaction = some r)
    (front : style.alternate = true → SameFront (style.columns.getD r.budget) c c') :
    c.debug style = c'.debug style := by
  simp only [debug, secret]
  split
  next alternate => rw [(front alternate).truncate]
  next => rfl

end Credential

section Records
variable {style : Style}

theorem Resource.debug_hidden {token token' : AccessToken}
    (same : token.debug style = token'.debug style) (lifetime : UInt64) :
    (⟨some token, lifetime⟩ : Resource).debug style =
      (⟨some token', lifetime⟩ : Resource).debug style := by
  simp only [Resource.debug, Option.map_some, same]

theorem FixedIssuer.debug_hidden {token token' : AccessToken}
    (same : token.debug style = token'.debug style) (lifetime : UInt64) :
    (⟨token, lifetime⟩ : FixedIssuer).debug style =
      (⟨token', lifetime⟩ : FixedIssuer).debug style := by
  simp only [FixedIssuer.debug, same]

theorem Credentials.debug_hidden {secret secret' : ClientSecret}
    (same : secret.debug style = secret'.debug style) (clientId : ClientId)
    (audience : Option Audience) :
    (⟨clientId, secret, audience⟩ : Credentials).debug style =
      (⟨clientId, secret', audience⟩ : Credentials).debug style := by
  simp only [Credentials.debug, same]

end Records

open Credential (SameFront)

/-- Two tokens, or two client secrets, are shown by the same texts, alone and in every record that
differs in them only, whatever the width: always if the style does not ask for secrets, and else
the debug texts are the same if both are longer than the budget, which is the width or else 15 or 5
characters, and agree in all characters that it leaves. So neither what is cut off nor how much of
it there was can be told from the texts. -/
theorem texts_hide_secrets (style : Style) :
    (∀ token token' : AccessToken,
      (style.alternate = false → token.display style = token'.display style) ∧
      ((style.alternate = true → SameFront (style.columns.getD 15) token token') →
        token.debug style = token'.debug style ∧
        ∀ lifetime : UInt64,
          (⟨some token, lifetime⟩ : Resource).debug style =
            (⟨some token', lifetime⟩ : Resource).debug style ∧
          (⟨token, lifetime⟩ : FixedIssuer).debug style =
            (⟨token', lifetime⟩ : FixedIssuer).debug style)) ∧
    ∀ secret secret' : ClientSecret,
      (style.alternate = false → secret.display style = secret'.display style) ∧
      ((style.alternate = true → SameFront (style.columns.getD 5) secret secret') →
        secret.debug style = secret'.debug style ∧
        ∀ (clientId : ClientId) (audience : Option Audience),
          (⟨clientId, secret, audience⟩ : Credentials).debug style =
            (⟨clientId, secret', audience⟩ : Credentials).debug style) := by
  constructor
  · refine fun token token' => ⟨Credential.display_hidden rfl, fun front => ?_⟩
    have same : token.debug style = token'.debug style := Credential.debug_hidden rfl front
    exact ⟨same, fun lifetime =>
      ⟨Resource.debug_hidden same lifetime, FixedIssuer.debug_hidden same lifetime⟩⟩
  · refine fun secret secret' => ⟨Credential.display_hidden rfl, fun front => ?_⟩
    have same : secret.debug style = secret'.debug style := Credential.debug_hidden rfl front
    exact ⟨same, Credentials.debug_hidden same⟩

/-- Two tokens that go on differently behind a line break, a quote and a character of two octets,
and two unlike secrets. -/
theorem texts_hide_secrets_lines :
    SameFront 4 (⟨"é\n\"€€"⟩ : AccessToken) ⟨"é\n\"line\nafter line"⟩ ∧
    (⟨"é\n\"€€"⟩ : AccessToken).debug { alternate := true, width := some 4 } =
      (⟨"é\n\"line\nafter line"⟩ : AccessToken).debug { alternate := true, width := some 4 } ∧
    (⟨some ⟨"é\n\"€€"⟩, 60⟩ : Resource).debug { alternate := true, width := some 4 } =
      (⟨some ⟨"é\n\"line\nafter line"⟩, 60⟩ : Resource).debug
        { alternate := true, width := some 4 } ∧
    (⟨⟨"id"⟩, ⟨""⟩, none⟩ : Credentials).debug {} =
      (⟨⟨"id"⟩, ⟨"pässword"⟩, none⟩ : Credentials).debug {} := by
  have front : SameFront 4 (⟨"é\n\"€€"⟩ : AccessToken) ⟨"é\n\"line\nafter line"⟩ :=
    ⟨by decide +kernel, by decide +kernel, by decide +kernel⟩
  obtain ⟨alone, record⟩ :=
    ((texts_hide_secrets { alternate := true, width := some 4 }).1 _ _).2 fun _ => front
  have plain := ((texts_hide_secrets {}).2 (⟨""⟩ : ClientSecret) ⟨"pässword"⟩).2 fun asks => by
    cases asks
  exact ⟨front, alone, (record 60).1, plain.2 _ _⟩

/-- The line break that is left starts a line of its own, as deep as the token stands. -/
example : (⟨some ⟨"é\n\"€€"⟩, 60⟩ : Resource).debug { alternate := true, width := some 4 } =
    ("TokenResource \x7b\n    access_token: Some(\n        \"é\n        \"…\",\n    ),\n" ++
      "    lifetime_secs:   60,\n\x7d").toList := by
  decide +kernel

end TokenKeeper
