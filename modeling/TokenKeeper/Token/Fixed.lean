import TokenKeeper.Token.Resource
/-! An issuer that always hands out the same token. -/
namespace TokenKeeper

structure FixedIssuer where
  token : AccessToken
  lifetime : UInt64
deriving DecidableEq

namespace FixedIssuer

def resource (issuer : FixedIssuer) : Resource := ⟨some issuer.token, issuer.lifetime⟩

def debug (style : Style) (issuer : FixedIssuer) : List Char :=
  Text.record style.alternate "StaticIssuer"
    [("access_token", issuer.token.debug style),
      ("lifetime_secs", Resource.lifetimeText style issuer.lifetime)] false

end FixedIssuer
end TokenKeeper
