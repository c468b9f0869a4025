import TokenKeeper.World.Scheduling
/-! What a worker does, one step at a time. A task goes on until it waits or ends; what it becomes
is said by the stage the worker is left in. -/
namespace TokenKeeper.World

def setStage (w : World) (p : PoolId) (stage : Worker.Stage Task) : World :=
  w.onWorker p fun worker => { worker with stage := stage }

def goOn (w : World) (p : PoolId) (task : Task) : World := w.setStage p (.busy task)

def yield (w : World) (p : PoolId) : World := w.setStage p .between

/-- Goes on if the worker's last look at the time is not before `due`, and else leaves off as the
`waiting` task. Without credit it cannot tell. -/
def waitTill (w : World) (p : PoolId) (due : Instant) (waiting : Task) (next : World → World) :
    World :=
  match w.pools[p]? with
  | none => w
  | some pool =>
    if pool.worker.credit = 0 then (w.yield p).onWorker p fun worker => worker.stepAside waiting
    else if due ≤ pool.worker.looked then next (w.onWorker p Worker.spend)
    else (w.yield p).onWorker p fun worker => worker.rest waiting due

/-- Pauses, and goes on with `next`; a task that still has a pause to make is `still` that pause. -/
def pauseThen (w : World) (p : PoolId) (pause : Pause) (still : Pause → Task) (next : Task) :
    World :=
  match pause with
  | .rest length =>
    let due := w.now.afterRest length
    w.waitTill p due (still (.till due)) (·.goOn p next)
  | .till due => w.waitTill p due (still (.till due)) (·.goOn p next)
  | .hold length =>
    if length = 0 then w.goOn p next else w.setStage p (.held next (w.now + length))

def endRun (w : World) (run : RunId) (ending : Ending) : World :=
  w.onScheduler run.scheduler fun scheduler =>
    { scheduler with
      runs := scheduler.runs.modify run.place fun r => { r with ending := some ending } }

def leaveRun (w : World) (p : PoolId) (run : RunId) : World :=
  (w.endRun run (.returned w.now)).yield p

/-- A run of a dropped cache has nothing to load. -/
def enter (w : World) (p : PoolId) (submission : Submission) : World :=
  match w.schedulers[submission.scheduler]? with
  | none => w.yield p
  | some scheduler =>
    let run : RunId := ⟨submission.scheduler, scheduler.runs.length⟩
    let w := w.onScheduler submission.scheduler fun scheduler =>
      { scheduler with runs := scheduler.runs ++ [⟨submission.number, w.now, none⟩] }
    match scheduler.job with
    | .script program => w.goOn p (.script run (program run.place))
    | .refresh c =>
      if w.caches[c]?.any (·.dropped) then (w.note .cacheGone).leaveRun p run
      else ((w.note .loading).submit (some p) p (.fetch run c)).yield p

def isCalledOff (w : World) (submission : Submission) : Bool :=
  w.schedulers[submission.scheduler]?.all (·.isShutDown)

def abandon (w : World) (p : PoolId) (submission : Submission) : World :=
  let w := w.onScheduler submission.scheduler fun scheduler =>
    { scheduler with abandoned := submission.number :: scheduler.abandoned }
  (w.note .runDropped).yield p

/-- The run's own scheduler does nothing once nobody holds it. -/
def unlessDropped (w : World) (s : SchedulerId) (f : World → World) : World :=
  if w.schedulers[s]?.all (·.dropped) then w else f w

def perform (w : World) (p : PoolId) (run : RunId) (action : Action) (rest : List Action) : World :=
  let s := run.scheduler
  let task := Task.script run rest
  match action with
  | .pause pause => w.pauseThen p pause (fun pause => .script run (.pause pause :: rest)) task
  | .schedule delay => (w.unlessDropped s fun w => w.schedule (some p) s delay).goOn p task
  | .start => (w.unlessDropped s fun w => w.start (some p) s).goOn p task
  | .shutdown => (w.unlessDropped s fun w => (w.shutdown (some p) s).1).goOn p task
  | .panic => (w.endRun run .panicked).yield p

def callIssuer (w : World) (p : PoolId) (run : RunId) (c : CacheId) : World :=
  match w.caches[c]? with
  | none => w.yield p
  | some cache =>
    let call := cache.issuer cache.attempts.length
    let w := w.onCache c fun cache =>
      { cache with attempts := { began := w.now } :: cache.attempts }
    w.goOn p (.call run c call.pauses call.reply)

def endCall (w : World) (p : PoolId) (run : RunId) (c : CacheId) (reply : Reply) : World :=
  let w := w.onCache c fun cache =>
    cache.onLatest fun attempt => { attempt with ended := some (w.now, reply) }
  (w.submit (some p) p (.conclude run c reply)).yield p

def takeUp (w : World) (c : CacheId) (config : Config) (reply : Reply) : World × Span :=
  match reply.token with
  | .ok (token, lifetime) =>
    let issued := config.issue token lifetime w.now
    let w := w.note (.received issued.lifetime issued.refreshDelay)
    (w.onCache c fun cache => cache.publish issued, issued.refreshDelay)
  | .error error => (w.note (.loadFailed error config.retryDelay), config.retryDelay)

def conclude (w : World) (p : PoolId) (run : RunId) (c : CacheId) (reply : Reply) : World :=
  match w.caches[c]? with
  | none => w.yield p
  | some cache =>
    let (w, delay) := w.takeUp c cache.config reply
    let w := w.onCache c fun cache =>
      cache.onLatest fun attempt => { attempt with concluded := some w.now }
    let w := w.schedule (some p) cache.scheduler delay
    (w.note (.nextLoad delay)).leaveRun p run

/-- The run begins in the same step that finds its delay over, unless it has been called off by
then; a later shutdown does not reach it. -/
def awaitDelay (w : World) (p : PoolId) (submission : Submission) (due : Instant) : World :=
  if w.isCalledOff submission then w.abandon p submission
  else w.waitTill p due (.pending submission due) (·.enter p submission)

def carryOn (w : World) (p : PoolId) (task : Task) : World :=
  match task with
  | .begin submission => w.enter p submission
  | .delayed submission delay => w.awaitDelay p submission (w.now.afterRest delay)
  | .pending submission due => w.awaitDelay p submission due
  | .script run [] => w.leaveRun p run
  | .script run (action :: rest) => w.perform p run action rest
  | .fetch run c => w.callIssuer p run c
  | .call run c [] reply => w.endCall p run c reply
  | .call run c (pause :: rest) reply =>
    w.pauseThen p pause (fun pause => .call run c (pause :: rest) reply) (.call run c rest reply)
  | .conclude run c reply => w.conclude p run c reply
  | .inquiry => (w.onPool p fun pool => { pool with answered := pool.answered + 1 }).yield p
  | .guest [] => w.yield p
  | .guest (pause :: rest) =>
    w.pauseThen p pause (fun pause => .guest (pause :: rest)) (.guest rest)

def work (w : World) (p : PoolId) : World :=
  match w.pools[p]? with
  | none => w
  | some pool =>
    match pool.worker.stage with
    | .busy task => w.carryOn p task
    | _ => w.onWorker p fun worker => worker.advance w.now

end TokenKeeper.World
