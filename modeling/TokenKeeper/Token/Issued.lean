import TokenKeeper.Config
import TokenKeeper.Credential
/-! A token as the cache keeps it. Its times count from the moment it was received. -/
namespace TokenKeeper

inductive Status where
  | fresh
  /-- Still valid, but a refresh was due. -/
  | stale
  | expired
deriving DecidableEq

structure Issued where
  token : AccessToken
  lifetime : Span
  refreshDelay : Span
  received : Instant
deriving DecidableEq

def Config.issue (config : Config) (token : AccessToken) (lifetime : UInt64) (now : Instant) :
    Issued :=
  ⟨token, Span.ofSecs lifetime.toNat, config.refreshDelay lifetime, now⟩

namespace Issued

def refreshAt (issued : Issued) : Option Instant := issued.received.later? issued.refreshDelay

def expiry (issued : Issued) : Option Instant := issued.received.later? issued.lifetime

/-- Before it was received a token has no age. -/
def age (issued : Issued) (time : Instant) : Span := time.since issued.received

def statusAt (issued : Issued) (time : Instant) : Status :=
  if issued.lifetime ≤ issued.age time then .expired
  else if issued.refreshDelay ≤ issued.age time then .stale
  else .fresh

def untilExpired (issued : Issued) (time : Instant) : Span := issued.lifetime - issued.age time

end Issued
end TokenKeeper
