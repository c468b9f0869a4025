import TokenKeeper.Reader
import TokenKeeper.Scheduler
import TokenKeeper.Trace
/-! All that lives under one clock: pools, schedulers, caches and readers. Workers and readers act
on their own; everything else comes from outside. -/
namespace TokenKeeper

structure World where
  now : Instant := Instant.start
  verbosity : Verbosity := none
  /-- The latest one first. -/
  log : List (Instant × Notice) := []
  pools : List Pool := []
  schedulers : List Scheduler := []
  caches : List Cache := []
  readers : List Reader := []
  /-- Why no runtime can be started, if that is so. -/
  outage : Option String := none

namespace World

def note (w : World) (notice : Notice) : World :=
  if w.verbosity.keeps notice then { w with log := (w.now, notice) :: w.log } else w

def notes (w : World) (notices : List Notice) : World := notices.foldl note w

def onPool (w : World) (p : PoolId) (f : Pool → Pool) : World :=
  { w with pools := w.pools.modify p f }

def onWorker (w : World) (p : PoolId) (f : Worker Task → Worker Task) : World :=
  w.onPool p fun pool => { pool with worker := f pool.worker }

def onScheduler (w : World) (s : SchedulerId) (f : Scheduler → Scheduler) : World :=
  { w with schedulers := w.schedulers.modify s f }

def onCache (w : World) (c : CacheId) (f : Cache → Cache) : World :=
  { w with caches := w.caches.modify c f }

def threads (w : World) (p : PoolId) : String := (w.pools[p]?.map (·.threads)).getD ""

/-- Gives a task to a pool: `actor` is the pool whose worker does so, and none is the outside. -/
def submit (w : World) (actor : Option PoolId) (p : PoolId) (task : Task) : World :=
  w.onWorker p fun worker =>
    if actor = some p then worker.push task else worker.submit task

end World
end TokenKeeper
