import TokenKeeper.Config
import TokenKeeper.Issuer
import TokenKeeper.Pool.Task
import TokenKeeper.Token.Issued
/-! A cache keeps the last good token of its issuer. -/
namespace TokenKeeper

structure Attempt where
  began : Instant
  ended : Option (Instant × Reply) := none
  /-- When its run took up the reply. -/
  concluded : Option Instant := none
deriving DecidableEq

structure Cache where
  config : Config
  issuer : Issuer
  scheduler : SchedulerId
  /-- The latest one first. -/
  attempts : List Attempt := []
  current : Option Issued := none
  /-- Whether there has been a token. -/
  ready : Bool := false
  /-- Whether nobody holds it any more. -/
  dropped : Bool := false

namespace Cache

def onLatest (cache : Cache) (f : Attempt → Attempt) : Cache :=
  { cache with attempts := cache.attempts.modify 0 f }

def publish (cache : Cache) (issued : Issued) : Cache :=
  { cache with current := some issued, ready := true }

def intervals (cache : Cache) : List (Instant × Option Instant) :=
  cache.attempts.reverse.map fun a => (a.began, a.ended.map (·.1))

end Cache
end TokenKeeper
