import TokenKeeper.World.Await
/-! Schedulers with jobs of their own. -/
namespace TokenKeeper.World

def addScheduler (w : World) (p : PoolId) (job : Job) : SchedulerId × World :=
  (w.schedulers.length, { w with schedulers := w.schedulers ++ [{ job := job, pool := some p }] })

/-- Shuts down from outside, and waits if a pool ends with it. True for the call that did it. -/
def retire (w : World) (s : SchedulerId) : Option (Bool × World) := do
  let (after, done) := w.shutdown none s
  match w.schedulers[s]?.bind (·.pool) with
  | none => some (done, after)
  | some p =>
    let after ← seeOff w p after
    some (done, after)

def dropScheduler (w : World) (s : SchedulerId) : Option World := do
  let (_, w) ← (w.onScheduler s fun scheduler => { scheduler with dropped := true }).retire s
  some w

end TokenKeeper.World
