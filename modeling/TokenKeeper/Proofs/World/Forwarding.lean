import TokenKeeper.Proofs.Chain.Answered
import TokenKeeper.Proofs.World.Ending
/-! Requests that are sent on. A request without authorization gets that of the token that its cache
has for it; a token that cannot stand in a header is left out. -/
namespace TokenKeeper

def AccessToken.Fits (token : AccessToken) : Prop :=
  ∀ octet ∈ Text.Utf8.encode token.text.toList,
    octet = 0x09 ∨ 0x20 ≤ octet ∧ octet ≤ 0x7e ∨ 0x7f < octet

namespace Header

end Header

namespace World
variable {w w' : World} {c : CacheId} {cache : Cache}

end World
end TokenKeeper
