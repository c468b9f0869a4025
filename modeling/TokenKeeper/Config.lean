import TokenKeeper.Clock
/-! How long a cache waits, how soon it loads again, and which pool it works on. -/
namespace TokenKeeper

structure Identity where
  name : String := "OIDC_CLIENT"
  background : Bool := true
deriving DecidableEq

structure Config where
  /-- How long callers wait for the first token. -/
  maxWait : Span := Span.ofSecs 10
  /-- Loads that succeed are at least this far apart. -/
  minDelay : Span := Span.ofSecs 5
  /-- The delay after a load that failed. -/
  retryDelay : Span := Span.ofSecs 3
  pool : Identity := {}
deriving DecidableEq

namespace Config

/-- A third of the lifetime but at least a second, raised to the minimum delay. -/
def refreshDelay (config : Config) (lifetime : UInt64) : Span :=
  max (Span.ofSecs (max (lifetime.toNat / 3) 1)) config.minDelay

end Config
end TokenKeeper
