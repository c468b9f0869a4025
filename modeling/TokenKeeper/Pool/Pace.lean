import TokenKeeper.Clock
/-! How often a worker with tasks at hand turns to its inbox first. The shorter its turns are, the
more of them pass in between. -/
namespace TokenKeeper

structure Pace where
  /-- Every so many turns the inbox comes first. -/
  every : Nat
  /-- A running mean of the length of a turn, in parts of a nanosecond. -/
  mean : Nat
  /-- When the present stretch of turns began. -/
  began : Instant
  /-- Turns in the stretch so far. -/
  turns : Nat
deriving DecidableEq

namespace Pace

def least : Nat := 2
def most : Nat := 127
def usual : Nat := 61

def parts : Nat := Nat.pow 2 32

def target : Nat := 200000 * parts

def fresh (now : Instant) : Pace := ⟨usual, target / usual, now, 0⟩

def fitting (pace : Pace) : Nat :=
  if pace.mean = 0 then most else max least (min most (target / pace.mean))

/-- A small difference does not change the pace. -/
def adapt (pace : Pace) : Pace :=
  let fitting := pace.fitting
  if pace.every + 2 < fitting || fitting + 2 < pace.every then { pace with every := fitting }
  else pace

def count (pace : Pace) : Pace := { pace with turns := pace.turns + 1 }

/-- Ends the stretch: each of its turns leaves nine tenths of the mean as it was and adds a tenth
of the mean over the stretch. -/
def close (pace : Pace) (now : Instant) : Pace :=
  let n := pace.turns
  if n = 0 then pace
  else
    let length := parts * now.since pace.began / n
    let kept := Nat.pow 9 n
    let all := Nat.pow 10 n
    { pace with mean := (pace.mean * kept + length * (all - kept)) / all, turns := 0 }

def resume (pace : Pace) (now : Instant) : Pace := { pace with began := now, turns := 0 }

end Pace
end TokenKeeper
