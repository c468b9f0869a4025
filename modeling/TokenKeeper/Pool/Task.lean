import TokenKeeper.Issuer
/-! What workers carry from one turn to the next. -/
namespace TokenKeeper

abbrev PoolId := Nat
abbrev SchedulerId := Nat
abbrev CacheId := Nat

inductive Action where
  | pause (pause : Pause)
  /-- The rest are about the run's own scheduler. -/
  | schedule (delay : Span)
  | start
  | shutdown
  | panic
deriving DecidableEq

/-- A run that a scheduler has been asked for, by its number there. -/
structure Submission where
  scheduler : SchedulerId
  number : Nat
deriving DecidableEq

/-- A run that has begun, by its place among its scheduler's runs. -/
structure RunId where
  scheduler : SchedulerId
  place : Nat
deriving DecidableEq

inductive Task where
  /-- A run to begin at once. -/
  | begin (submission : Submission)
  /-- A run whose delay has not begun. -/
  | delayed (submission : Submission) (delay : Span)
  /-- A run whose delay has begun. -/
  | pending (submission : Submission) (due : Instant)
  | script (run : RunId) (actions : List Action)
  /-- The run is about to call the issuer. -/
  | fetch (run : RunId) (cache : CacheId)
  | call (run : RunId) (cache : CacheId) (pauses : List Pause) (reply : Reply)
  /-- The call is over, and the run takes up what came of it. -/
  | conclude (run : RunId) (cache : CacheId) (reply : Reply)
  /-- Somebody asks for the thread. -/
  | inquiry
  /-- Somebody else's task. -/
  | guest (pauses : List Pause)
deriving DecidableEq

def Task.isPendingOf (scheduler : SchedulerId) : Task → Bool
  | pending submission _ => submission.scheduler == scheduler
  | _ => false

end TokenKeeper
