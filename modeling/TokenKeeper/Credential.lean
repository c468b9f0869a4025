import TokenKeeper.Text.Truncated
import TokenKeeper.Text.Quoted
/-! The texts that name and authenticate a client. Secret ones show a fixed label, unless the
alternate style asks for them; then debug text is still cut to a budget. -/
namespace TokenKeeper

structure Style where
  alternate : Bool := false
  width : Option UInt16 := none
deriving DecidableEq

def Style.withWidth? (style : Style) (width : Nat) : Option Style :=
  if width < UInt16.size then some { style with width := some (UInt16.ofNat width) } else none

def Style.columns (style : Style) : Option Nat := style.width.map (·.toNat)

/-- What stands in for a secret, and how much of it the alternate debug form shows. -/
structure Redaction where
  label : String
  budget : Nat
deriving DecidableEq

namespace Credential

inductive Kind where
  | accessToken
  | clientSecret
  | clientId
  | audience
deriving DecidableEq

def Kind.redaction : Kind → Option Redaction
  | .accessToken => some ⟨"***ACCESS TOKEN***", 15⟩
  | .clientSecret => some ⟨"***CLIENT SECRET***", 5⟩
  | .clientId => none
  | .audience => none

end Credential

structure Credential (kind : Credential.Kind) where
  text : String
deriving DecidableEq

abbrev AccessToken := Credential .accessToken
abbrev ClientSecret := Credential .clientSecret
abbrev ClientId := Credential .clientId
abbrev Audience := Credential .audience

namespace Credential

def unlimited : Nat := UInt64.size - 1

def chars (c : Credential kind) : List Char := c.text.toList

/-- Plain text fills the width; a secret in the alternate style is cut to it, or else to the largest
budget there is. -/
def display (style : Style) (c : Credential kind) : List Char :=
  match kind.redaction with
  | none => (style.columns.map fun n => Text.padEnd n c.chars).getD c.chars
  | some r =>
    if style.alternate then Text.truncate (style.columns.getD unlimited) c.chars
    else r.label.toList

/-- A secret in the alternate style is cut to the width, or else to its own budget; what is left
stands between quotes as it is. -/
def debug (style : Style) (c : Credential kind) : List Char :=
  match kind.redaction with
  | none => Text.quoted c.chars
  | some r =>
    if style.alternate then '"' :: Text.truncate (style.columns.getD r.budget) c.chars ++ ['"']
    else r.label.toList

def order (a b : Credential kind) : Ordering := compare a.text b.text

end Credential
end TokenKeeper
