import TokenKeeper.Cache
/-! Readers ask a cache for its token, and wait for the first one only. -/
namespace TokenKeeper

inductive Reader.Stage where
  | coming (time : Instant)
  | waiting (asked deadline : Instant)
  | served (asked time : Instant) (token : Option AccessToken)
deriving DecidableEq

structure Reader where
  cache : CacheId
  /-- Whether it blocks its thread while it waits. -/
  blocking : Bool
  stage : Reader.Stage
deriving DecidableEq

namespace Reader

/-- What opens the gate: blocking readers watch readiness, the others the token itself. -/
def sees (reader : Reader) (cache : Cache) : Bool :=
  if reader.blocking then cache.ready else cache.current.isSome

def isServed (reader : Reader) : Bool :=
  match reader.stage with
  | .served .. => true
  | _ => false

def isDue (reader : Reader) (cache : Cache) (now : Instant) : Bool :=
  match reader.stage with
  | .coming time => time ≤ now
  | .waiting _ deadline => deadline ≤ now || reader.sees cache
  | .served .. => false

def wakes (reader : Reader) : Option Instant :=
  match reader.stage with
  | .coming time => some time
  | .waiting _ deadline => some deadline
  | .served .. => none

def answer (reader : Reader) : Option AccessToken × Instant :=
  match reader.stage with
  | .served _ time token => (token, time)
  | .coming time | .waiting time _ => (none, time)

end Reader
end TokenKeeper
