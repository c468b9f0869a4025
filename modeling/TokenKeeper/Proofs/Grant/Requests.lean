import TokenKeeper.Grant.Exchange
import TokenKeeper.Proofs.Form
import TokenKeeper.Proofs.Json.Object
/-! Both ways to send credentials carry the same fields and nothing else, whatever text a client is
known by: who decodes a request finds them again, and no two credentials share a request. -/
namespace TokenKeeper
open Text

namespace Credentials

/-- A missing audience has no field, so an empty one stays apart from it. -/
theorem pairs_injective : Function.Injective pairs := by
  rintro ⟨⟨id⟩, ⟨secret⟩, audience⟩ ⟨⟨id'⟩, ⟨secret'⟩, audience'⟩ h
  simp only [pairs, List.cons_append, List.nil_append, List.cons.injEq, Prod.mk.injEq, true_and]
    at h
  obtain ⟨rfl, rfl, h⟩ := h
  cases audience with
  | none => cases audience' with
    | none => rfl
    | some => exact absurd h nofun
  | some audience => cases audience' with
    | none => exact absurd h nofun
    | some audience' =>
      have htext : audience.text = audience'.text := (Prod.mk.inj (List.cons.inj h).1).2
      rw [show audience = audience' from congrArg Credential.mk htext]

theorem fieldsOf_json (credentials : Credentials) :
    Json.fieldsOf (Utf8.encode credentials.json) = .ok credentials.pairs :=
  Json.fieldsOf_object credentials.pairs

theorem decode_form (credentials : Credentials) :
    Form.decode (Utf8.encode credentials.form) = credentials.pairs :=
  Form.decode_encode credentials.pairs

theorem body_injective (encoding : Exchange.Encoding) : Function.Injective encoding.body := by
  intro a b h
  refine pairs_injective ?_
  cases encoding with
  | json =>
    have hread := fieldsOf_json a
    rw [show a.json = b.json from h, fieldsOf_json b] at hread
    exact (Except.ok.inj hread).symm
  | form => rw [← decode_form a, show a.form = b.form from h, decode_form b]

end Credentials

/-- The body of a request decodes, as an object or as a form, to the client's fields in order, the
last one only for an audience; and no two credentials share a body. -/
theorem requests_carry_credentials (endpoint : Exchange.Endpoint) :
    (∀ credentials : Credentials,
      let octets encoding :=
        Utf8.encode (Exchange.request endpoint encoding credentials).body.toList
      let fields := [("grant_type", "client_credentials"),
          ("client_id", credentials.clientId.text),
          ("client_secret", credentials.clientSecret.text)] ++
        (credentials.audience.map fun audience => ("audience", audience.text)).toList
      Json.fieldsOf (octets .json) = .ok fields ∧ Form.decode (octets .form) = fields) ∧
    ∀ encoding, Function.Injective fun credentials =>
      (Exchange.request endpoint encoding credentials).body := by
  refine ⟨fun credentials => ⟨?_, ?_⟩, fun encoding a b h => ?_⟩
  · have hjson := credentials.fieldsOf_json
    rwa [← String.toList_ofList (l := credentials.json)] at hjson
  · have hform := credentials.decode_form
    rwa [← String.toList_ofList (l := credentials.form)] at hform
  · exact Credentials.body_injective encoding (String.ofList_injective h)

end TokenKeeper
