import TokenKeeper.World
/-! What schedulers do when asked, and how pools end. A pool lasts as long as the registry, a kept
handle, or a scheduler that is not shut down holds it. -/
namespace TokenKeeper.World

def isOwned (w : World) (p : PoolId) : Bool :=
  (w.pools[p]?.any fun pool => pool.registered || 0 < pool.handles) ||
    w.schedulers.any fun scheduler => scheduler.pool == some p

def release (w : World) (p : PoolId) : World :=
  match w.pools[p]? with
  | none => w
  | some pool =>
    if w.isOwned p || pool.worker.closing then w
    else (w.note (.poolClosing pool.threads)).onWorker p fun worker =>
      { worker with closing := true }

/-- Only the first start counts, and none after a shutdown. -/
def start (w : World) (actor : Option PoolId) (s : SchedulerId) : World :=
  match w.schedulers[s]? with
  | none => w
  | some scheduler =>
    if scheduler.started then w.note .startRepeated
    else match scheduler.pool with
      | none => w.note .startIgnored
      | some p =>
        let w := w.submit actor p (.begin ⟨s, scheduler.accepted⟩)
        let w := w.onScheduler s fun scheduler =>
          { scheduler with started := true, accepted := scheduler.accepted + 1 }
        w.note (.submitted (w.threads p))

def schedule (w : World) (actor : Option PoolId) (s : SchedulerId) (delay : Span) : World :=
  match w.schedulers[s]? with
  | none => w
  | some scheduler =>
    match scheduler.pool with
    | none => w.note .scheduleIgnored
    | some p =>
      let w := w.submit actor p (.delayed ⟨s, scheduler.accepted⟩ delay)
      let w := w.onScheduler s fun scheduler =>
        { scheduler with accepted := scheduler.accepted + 1 }
      w.note (.scheduled (w.threads p) delay)

/-- Lets go of the pool and wakes all runs that wait for their delays, so that they find out. True
for the call that did it. -/
def shutdown (w : World) (actor : Option PoolId) (s : SchedulerId) : World × Bool :=
  match w.schedulers[s]?.bind (·.pool) with
  | none => (w, false)
  | some p =>
    let w := w.onScheduler s fun scheduler => { scheduler with pool := none }
    let w := w.onWorker p fun worker => worker.rouse (actor == some p) (Task.isPendingOf s)
    let w := w.note (.schedulerClosed (w.threads p))
    (w.release p, true)

end TokenKeeper.World
