import TokenKeeper.Config
import TokenKeeper.Pool.Task
import TokenKeeper.Pool.Worker
/-! A worker pool: one worker, shared by all who ask for the same threads. -/
namespace TokenKeeper

def Identity.threads (identity : Identity) : String :=
  identity.name ++ (if identity.background then "-daemon" else "") ++ "-thread-"

structure Helper where
  number : Nat
  since : Instant
deriving DecidableEq

structure Pool where
  identity : Identity
  /-- Whether the registry holds it. -/
  registered : Bool := true
  /-- How many handles on it are kept elsewhere. -/
  handles : Nat := 0
  worker : Worker Task
  /-- Inquiries answered so far. -/
  answered : Nat := 0
  /-- Threads so far; the worker is the first. -/
  threadCount : Nat := 1
  helpers : List Helper := []
deriving DecidableEq

namespace Pool

def threads (pool : Pool) : String := pool.identity.threads

def threadName (pool : Pool) (number : Nat) : String := pool.threads ++ toString number

def helperPatience : Span := Span.ofSecs 10

def maxHelpers : Nat := 512

def helpersAt (pool : Pool) (now : Instant) : List Helper :=
  pool.helpers.filter fun h => now < h.since + helperPatience

/-- The threads for `count` jobs at once: helpers first, then new threads. -/
def enlist (pool : Pool) (now : Instant) (count : Nat) : List Nat × Pool :=
  let present := pool.helpersAt now
  let new := count - present.length
  ((present.take count).map (·.number) ++ (List.range new).map fun i => pool.threadCount + 1 + i,
    { pool with helpers := present.drop count, threadCount := pool.threadCount + new })

/-- Which of the threads work in each shift until `count` jobs are done, one job a thread and
shift. -/
def shifts (numbers : List Nat) (count : Nat) : List (List Nat) :=
  (List.range ((count + maxHelpers - 1) / maxHelpers)).map fun shift =>
    numbers.take (count - shift * maxHelpers)

def dismiss (pool : Pool) (now : Instant) (numbers : List Nat) : Pool :=
  { pool with helpers := pool.helpers ++ numbers.map fun n => ⟨n, now⟩ }

end Pool
end TokenKeeper
