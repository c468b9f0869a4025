import TokenKeeper.Pool
import TokenKeeper.Text.Layout
import TokenKeeper.Text.Quoted
/-! A scheduler runs its job once when started, and again whenever it is asked to. -/
namespace TokenKeeper

inductive Job where
  /-- What each run does, counted from zero. -/
  | script (program : Nat → List Action)
  /-- Loads a token for the cache. -/
  | refresh (cache : CacheId)

inductive Ending where
  | returned (time : Instant)
  | panicked
deriving DecidableEq

structure Run where
  submission : Nat
  began : Instant
  /-- None while it goes on. -/
  ending : Option Ending := none
deriving DecidableEq

structure Scheduler where
  job : Job
  /-- None once shut down. -/
  pool : Option PoolId
  started : Bool := false
  /-- Whether nobody holds it any more. -/
  dropped : Bool := false
  /-- Submissions accepted so far. -/
  accepted : Nat := 0
  /-- Submissions that a shutdown kept from beginning. -/
  abandoned : List Nat := []
  runs : List Run := []

/-- Begin and end; a run that goes on or panicked has no end. -/
def Run.interval (run : Run) : Instant × Option Instant :=
  (run.began, match run.ending with
    | some (.returned time) => some time
    | _ => none)

namespace Scheduler

def isShutDown (scheduler : Scheduler) : Bool := scheduler.pool.isNone

def debug (multiline : Bool) (threads : Option String) (started : Bool) : List Char :=
  Text.record multiline "Scheduler"
    [("pool", Text.optional multiline (threads.map fun t => Text.quoted t.toList)),
      ("started", (toString started).toList)] true

end Scheduler
end TokenKeeper
