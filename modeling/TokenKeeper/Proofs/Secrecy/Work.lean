import TokenKeeper.Proofs.Secrecy.Disguise
import TokenKeeper.Proofs.World.Turn
/-! Schedulers and workers do the same whatever the texts of the tokens are. -/
namespace TokenKeeper.World
variable (d : CacheId → Disguise) (w : World)

section Threads
variable (p q : PoolId)

@[simp] theorem threads_onWorker (f : Worker Task → Worker Task) :
    (w.onWorker q f).threads p = w.threads p := by
  simp only [threads, onWorker, onPool, List.getElem?_modify]
  cases w.pools[p]? with
  | none => rfl
  | some pool => by_cases same : q = p <;> simp [same, Pool.threads]

@[simp] theorem threads_submit (actor : Option PoolId) (task : Task) :
    (w.submit actor q task).threads p = w.threads p := w.threads_onWorker p q _

@[simp] theorem threads_onScheduler (s : SchedulerId) (f : Scheduler → Scheduler) :
    (w.onScheduler s f).threads p = w.threads p := rfl

end Threads

theorem getElem?_disguise_pools (p : PoolId) :
    (w.disguise d).pools[p]? = w.pools[p]?.map (Pool.disguise d) := by simp

theorem getElem?_disguise_caches (c : CacheId) :
    (w.disguise d).caches[c]? = w.caches[c]?.map (Cache.disguise (d c)) := by simp

@[simp] theorem onScheduler_caches (s : SchedulerId) (f : Scheduler → Scheduler) :
    (w.onScheduler s f).caches = w.caches := rfl

theorem disguise_anyDropped (c : CacheId) :
    (w.disguise d).caches[c]?.any (·.dropped) = w.caches[c]?.any (·.dropped) := by
  rw [getElem?_disguise_caches]
  cases w.caches[c]? <;> rfl

@[simp] theorem disguise_isOwned (p : PoolId) : (w.disguise d).isOwned p = w.isOwned p := by
  unfold isOwned
  rw [getElem?_disguise_pools]
  cases w.pools[p]? <;> rfl

@[simp] theorem disguise_release (p : PoolId) :
    (w.release p).disguise d = (w.disguise d).release p := by
  unfold release
  rw [getElem?_disguise_pools]
  cases w.pools[p]? with
  | none => rfl
  | some pool =>
    have closes (w : World) :
        (w.onWorker p fun worker => { worker with closing := true }).disguise d =
          (w.disguise d).onWorker p fun worker => { worker with closing := true } :=
      disguise_onWorker d w p fun worker => rfl
    by_cases stays : w.isOwned p = true ∨ pool.worker.closing = true <;>
      simp [Pool.disguise, Pool.threads, stays, closes]

@[simp] theorem disguise_start (actor : Option PoolId) (s : SchedulerId) :
    (w.start actor s).disguise d = (w.disguise d).start actor s := by
  unfold start
  simp only [disguise_schedulers]
  split
  · rfl
  · split
    · simp
    · split <;> simp [Task.disguise]

@[simp] theorem disguise_schedule (actor : Option PoolId) (s : SchedulerId) (delay : Span) :
    (w.schedule actor s delay).disguise d = (w.disguise d).schedule actor s delay := by
  unfold schedule
  simp only [disguise_schedulers]
  split
  · rfl
  · split <;> simp [Task.disguise]

theorem disguise_rouse (p : PoolId) (own : Bool) (s : SchedulerId) :
    (w.onWorker p fun worker => worker.rouse own (Task.isPendingOf s)).disguise d =
      (w.disguise d).onWorker p fun worker => worker.rouse own (Task.isPendingOf s) := by
  apply disguise_onWorker
  intro worker
  exact worker.rouse_map _ own (Task.disguise_isPendingOf d s)

theorem disguise_shutdown (actor : Option PoolId) (s : SchedulerId) :
    (w.disguise d).shutdown actor s =
      ((w.shutdown actor s).1.disguise d, (w.shutdown actor s).2) := by
  unfold shutdown
  simp only [disguise_schedulers]
  split <;> simp [disguise_rouse]

section Work
variable (p : PoolId)

@[simp] theorem disguise_setStage (stage : Worker.Stage Task) :
    (w.setStage p stage).disguise d =
      (w.disguise d).setStage p (stage.map (Task.disguise d)) := by
  apply disguise_onWorker
  intro worker
  rfl

@[simp] theorem disguise_goOn (task : Task) :
    (w.goOn p task).disguise d = (w.disguise d).goOn p (task.disguise d) := by
  simp [goOn, Worker.Stage.map]

@[simp] theorem disguise_yield : (w.yield p).disguise d = (w.disguise d).yield p := by
  simp [World.yield, Worker.Stage.map]

theorem disguise_waitTill (due : Instant) (waiting : Task) {next next' : World → World}
    (h : ∀ w, (next w).disguise d = next' (w.disguise d)) :
    (w.waitTill p due waiting next).disguise d =
      (w.disguise d).waitTill p due (waiting.disguise d) next' := by
  have aside (w : World) :
      (w.onWorker p fun worker => worker.stepAside waiting).disguise d =
        (w.disguise d).onWorker p fun worker => worker.stepAside (waiting.disguise d) :=
    disguise_onWorker d w p fun worker => worker.stepAside_map _ _
  have spends : (w.onWorker p Worker.spend).disguise d =
      (w.disguise d).onWorker p Worker.spend :=
    disguise_onWorker d w p fun worker => worker.spend_map _
  have rests (w : World) :
      (w.onWorker p fun worker => worker.rest waiting due).disguise d =
        (w.disguise d).onWorker p fun worker => worker.rest (waiting.disguise d) due :=
    disguise_onWorker d w p fun worker => worker.rest_map _ _ _
  unfold waitTill
  rw [getElem?_disguise_pools]
  cases w.pools[p]? with
  | none => rfl
  | some pool =>
    by_cases spent : pool.worker.credit = 0
    · simp [Pool.disguise, spent, aside]
    · by_cases lapsed : due ≤ pool.worker.looked <;>
        simp [Pool.disguise, spent, lapsed, h, spends, rests]

theorem disguise_pauseThen (pause : Pause) {still still' : Pause → Task} (next : Task)
    (h : ∀ pause, (still pause).disguise d = still' pause) :
    (w.pauseThen p pause still next).disguise d =
      (w.disguise d).pauseThen p pause still' (next.disguise d) := by
  cases pause with
  | rest | till =>
    simp only [pauseThen, ← h]
    exact disguise_waitTill d w p _ _ fun w => disguise_goOn d w p next
  | hold length =>
    by_cases free : length = 0 <;> simp [pauseThen, free, Worker.Stage.map]

@[simp] theorem disguise_endRun (run : RunId) (ending : Ending) :
    (w.endRun run ending).disguise d = (w.disguise d).endRun run ending := rfl

@[simp] theorem disguise_leaveRun (run : RunId) :
    (w.leaveRun p run).disguise d = (w.disguise d).leaveRun p run := by
  simp [leaveRun]

theorem disguise_enter (submission : Submission) :
    (w.enter p submission).disguise d = (w.disguise d).enter p submission := by
  unfold enter
  simp only [disguise_schedulers]
  split
  · simp
  · rename_i scheduler _
    cases scheduler.job with
    | script program => simp [Task.disguise]
    | refresh c =>
      have same := disguise_anyDropped d w c
      dsimp only
      by_cases gone : w.caches[c]?.any (·.dropped) = true
      · rw [if_pos, if_pos]
        · simp
        · exact same.trans gone
        · exact gone
      · rw [if_neg, if_neg]
        · simp [Task.disguise]
        · rwa [onScheduler_caches, same]
        · exact gone

@[simp] theorem disguise_isCalledOff (submission : Submission) :
    (w.disguise d).isCalledOff submission = w.isCalledOff submission := rfl

@[simp] theorem disguise_abandon (submission : Submission) :
    (w.abandon p submission).disguise d = (w.disguise d).abandon p submission := by
  simp [abandon]

theorem disguise_unlessDropped (s : SchedulerId) {f g : World → World}
    (h : (f w).disguise d = g (w.disguise d)) :
    (w.unlessDropped s f).disguise d = (w.disguise d).unlessDropped s g := by
  unfold unlessDropped
  rw [apply_ite (disguise d), h]
  rfl

theorem disguise_perform (run : RunId) (action : Action) (rest : List Action) :
    (w.perform p run action rest).disguise d = (w.disguise d).perform p run action rest := by
  cases action with
  | pause pause => exact disguise_pauseThen d w p pause _ fun _ => rfl
  | schedule delay =>
    have := disguise_unlessDropped d w run.scheduler
      (f := fun w => w.schedule (some p) run.scheduler delay)
      (g := fun w => w.schedule (some p) run.scheduler delay) (by simp)
    simp [perform, this, Task.disguise]
  | start =>
    have := disguise_unlessDropped d w run.scheduler (f := fun w => w.start (some p) run.scheduler)
      (g := fun w => w.start (some p) run.scheduler) (by simp)
    simp [perform, this, Task.disguise]
  | shutdown =>
    have := disguise_unlessDropped d w run.scheduler
      (f := fun w => (w.shutdown (some p) run.scheduler).1)
      (g := fun w => (w.shutdown (some p) run.scheduler).1) (by simp [disguise_shutdown])
    simp [perform, this, Task.disguise]
  | panic => simp [perform]

theorem disguise_callIssuer (run : RunId) (c : CacheId) :
    (w.callIssuer p run c).disguise d = (w.disguise d).callIssuer p run c := by
  unfold callIssuer
  rw [getElem?_disguise_caches]
  cases w.caches[c]? with
  | none => simp
  | some cache =>
    have calls := disguise_onCache d w c
      (f := fun cache => { cache with attempts := { began := w.now } :: cache.attempts })
      (g := fun cache => { cache with attempts := { began := w.now } :: cache.attempts })
      fun cache => rfl
    simp [calls, Task.disguise, Cache.disguise, Issuer.disguise, Call.disguise]

theorem onLatest_disguise (cache : Cache) (d : Disguise) {f g : Attempt → Attempt}
    (h : ∀ attempt, (f attempt).disguise d = g (attempt.disguise d)) :
    (cache.onLatest f).disguise d = (cache.disguise d).onLatest g := by
  simp [Cache.onLatest, Cache.disguise, map_modify h]

theorem disguise_endCall (run : RunId) (c : CacheId) (reply : Reply) :
    (w.endCall p run c reply).disguise d =
      (w.disguise d).endCall p run c (reply.disguise (d c)) := by
  have ends := disguise_onCache d w c
    (f := fun cache =>
      cache.onLatest fun attempt => { attempt with ended := some (w.now, reply) })
    (g := fun cache =>
      cache.onLatest fun attempt => { attempt with ended := some (w.now, reply.disguise (d c)) })
    fun cache => onLatest_disguise cache (d c) fun _ => rfl
  simp [endCall, ends, Task.disguise]

theorem disguise_takeUp (c : CacheId) (config : Config) (reply : Reply) :
    (w.disguise d).takeUp c config (reply.disguise (d c)) =
      ((w.takeUp c config reply).1.disguise d, (w.takeUp c config reply).2) := by
  unfold takeUp
  rw [Reply.token_disguise]
  cases reply.token with
  | error error => simp [Except.map]
  | ok good =>
    obtain ⟨token, lifetime⟩ := good
    have publishes := disguise_onCache d
      (w.note (.received (Span.ofSecs lifetime.toNat) (config.refreshDelay lifetime))) c
      (f := fun cache => cache.publish (config.issue token lifetime w.now))
      (g := fun cache => cache.publish (config.issue (token.disguise (d c)) lifetime w.now))
      fun cache => rfl
    simp [Except.map, Config.issue] at publishes ⊢
    exact publishes.symm

theorem disguise_conclude (run : RunId) (c : CacheId) (reply : Reply) :
    (w.conclude p run c reply).disguise d =
      (w.disguise d).conclude p run c (reply.disguise (d c)) := by
  have concludes (w : World) := disguise_onCache d w c
    (f := fun cache =>
      cache.onLatest fun attempt => { attempt with concluded := some w.now })
    (g := fun cache =>
      cache.onLatest fun attempt => { attempt with concluded := some w.now })
    fun cache => onLatest_disguise cache (d c) fun _ => rfl
  unfold conclude
  rw [getElem?_disguise_caches]
  cases w.caches[c]? with
  | none => simp
  | some cache =>
    simp only [Option.map_some, Cache.disguise, disguise_takeUp]
    obtain ⟨taken, delay⟩ := w.takeUp c cache.config reply
    simp [concludes]

theorem disguise_awaitDelay (submission : Submission) (due : Instant) :
    (w.awaitDelay p submission due).disguise d = (w.disguise d).awaitDelay p submission due := by
  unfold awaitDelay
  rw [disguise_isCalledOff]
  split
  · exact disguise_abandon d w p submission
  · exact disguise_waitTill d w p due _ fun w => disguise_enter d w p submission

theorem disguise_carryOn (task : Task) :
    (w.carryOn p task).disguise d = (w.disguise d).carryOn p (task.disguise d) := by
  cases task with
  | begin submission => exact disguise_enter d w p submission
  | delayed submission delay => exact disguise_awaitDelay d w p submission _
  | pending submission due => exact disguise_awaitDelay d w p submission due
  | script run actions =>
    cases actions with
    | nil => exact disguise_leaveRun d w p run
    | cons action rest => exact disguise_perform d w p run action rest
  | fetch run c => exact disguise_callIssuer d w p run c
  | call run c pauses reply =>
    cases pauses with
    | nil => exact disguise_endCall d w p run c reply
    | cons pause rest => exact disguise_pauseThen d w p pause _ fun _ => rfl
  | conclude run c reply => exact disguise_conclude d w p run c reply
  | inquiry =>
    have answers := disguise_onPool d w p
      (f := fun pool => { pool with answered := pool.answered + 1 })
      (g := fun pool => { pool with answered := pool.answered + 1 }) fun pool => rfl
    simp [carryOn, Task.disguise, answers]
  | guest pauses =>
    cases pauses with
    | nil => simp [carryOn, Task.disguise]
    | cons pause rest => exact disguise_pauseThen d w p pause _ fun _ => rfl

theorem disguise_work : (w.work p).disguise d = (w.disguise d).work p := by
  unfold work
  rw [getElem?_disguise_pools]
  cases w.pools[p]? with
  | none => rfl
  | some pool =>
    have advances := disguise_onWorker d w p (f := fun worker => worker.advance w.now)
      (g := fun worker => worker.advance w.now) fun worker => worker.advance_map _ _
    cases stage : pool.worker.stage <;>
      simp [Pool.disguise, stage, Worker.Stage.map, advances, disguise_carryOn]

end Work
end TokenKeeper.World
