import TokenKeeper.Proofs.Docket.Course
import TokenKeeper.Proofs.Docket.Fate
import TokenKeeper.Proofs.Docket.Loads
import TokenKeeper.Proofs.Operations
/-! A run that has begun is not touched by a shutdown, whoever calls it. As long as its pool is not
torn down it does all that it has to do, and only those who hold the worker make it late. -/
namespace TokenKeeper

/-- A call of the issuer has been answered, taken up, and its token published if it has one. -/
structure Cache.TookUp (cache : Cache) (n : Nat) (time : Instant) : Prop where
  call : ∃ call ended, cache.calls[n]? = some call ∧
    call.ended = some (ended, (cache.issuer n).reply) ∧ call.concluded = some time
  published : ∀ token lifetime, (cache.issuer n).reply.token = .ok (token, lifetime) →
    cache.config.issue token lifetime time ∈ cache.publications

theorem Chain.Sound.tookUp {exact : Prop} {start : Instant} {x : Chain} (h : x.Sound exact start)
    {n : Nat} {call : Attempt} {time : Instant} (hc : x.cache.calls[n]? = some call)
    (taken : call.concluded = some time) : x.cache.TookUp n time := by
  have regular := h.timed.regular hc
  obtain ⟨ended, reply, he, -⟩ := regular.concluded time taken
  obtain rfl := (regular.ended ended reply he).2
  refine ⟨⟨call, ended, hc, he, taken⟩, fun token lifetime usable => ?_⟩
  exact List.mem_filterMap.mpr ⟨call, List.mem_of_getElem? hc,
    Attempt.issued?_ok x.cache.config he taken usable⟩

namespace World
variable {w w' : World} {s : SchedulerId} {p : PoolId} {k : Nat} {x : Docket} {before : Scheduler}
  {actions : List Action} {due : Instant} {delay length : Span}

def Elsewhere (w : World) (s : SchedulerId) (p : PoolId) (k : Nat) : Prop :=
  ∃ pool task till, w.pools[p]? = some pool ∧ pool.worker.stage = .held task till ∧
    ¬(task.scheduler? = some s ∧ task.place? = some k)

/-- Any number of steps, and how long others than the run hold the worker meanwhile. -/
inductive LaterHeld (s : SchedulerId) (p : PoolId) (k : Nat) (w : World) : Span → World → Prop where
  | refl : LaterHeld s p k w 0 w
  | own {length w' w''} (before : LaterHeld s p k w length w') (step : Step w' w'')
      (free : ¬w'.Elsewhere s p k) : LaterHeld s p k w length w''
  | held {length w' w''} (before : LaterHeld s p k w length w') (step : Step w' w'')
      (held : w'.Elsewhere s p k) : LaterHeld s p k w (length + (w''.now - w'.now)) w''

theorem LaterHeld.later (run : LaterHeld s p k w length w') : Later w w' := by
  induction run with
  | refl => exact .refl
  | own _ step _ ih | held _ step _ ih => exact ih.tail step

theorem Later.held (later : Later w w') (s : SchedulerId) (p : PoolId) (k : Nat) :
    ∃ length, LaterHeld s p k w length w' := by
  induction later with
  | refl => exact ⟨0, .refl⟩
  | @tail middle _ _ step ih =>
    obtain ⟨length, run⟩ := ih
    by_cases elsewhere : middle.Elsewhere s p k
    · exact ⟨_, run.held step elsewhere⟩
    · exact ⟨length, run.own step elsewhere⟩

/-- When the run goes on if nobody else is in its way. -/
def goesOn (w : World) (p : PoolId) (task : Task) : Instant :=
  match w.pools[p]? with
  | some pool => pool.worker.stage.goesOn w.now task
  | none => w.now

theorem Lists.goesOn (lists : w.Lists s p x) {task : Task} (mine : task.scheduler? = some s) :
    x.hand.goesOn x.now task = w.goesOn p task := by
  obtain ⟨pool, hp, -, hand, -⟩ := lists.pool
  unfold World.goesOn
  rw [hp, hand, lists.now]
  exact Worker.Stage.of_goesOn mine

theorem Lists.mine (lists : w.Lists s p x) {task : Task} (ht : task ∈ x.tasks) :
    task.scheduler? = some s := by
  rw [← lists.live] at ht
  exact (Multiset.mem_filter.mp ht).2

/-- What the run and its scheduler are later on. -/
structure Proceeds (w : World) (s : SchedulerId) (p : PoolId) (k : Nat) (before : Scheduler)
    (actions : List Action) (due : Instant) (delay : Span) (scheduler : Scheduler) (run : Run) :
    Prop where
  /-- After a shutdown nothing is accepted any more, also from the run itself. -/
  continues : before.Continues scheduler
  ended : ∀ ending, run.ending = some ending → ending.Of actions due delay
  /-- The registry, a handle or an open scheduler keeps the pool from being torn down. -/
  kept : w.isOwned p = true → ∀ pool, w.pools[p]? = some pool → pool.worker.closing = false
  /-- Unless the pool has been torn down, a run that has not ended goes on and is not overdue. -/
  goes : run.ending = none →
    (∀ pool, w.pools[p]? = some pool → pool.worker.closing = false) →
      ∃ task call, Announces w.caches s call ∧
        (w.live s).filter (·.place? = some k) = {task} ∧
        Action.Remains actions (task.actions call) ∧ w.now ≤ due + delay ∧
        (w.move? = none → ¬w.Elsewhere s p k → w.now < due + delay)

structure OnCourse (w : World) (s : SchedulerId) (p : PoolId) (k : Nat) (before : Scheduler)
    (actions : List Action) (due : Instant) (delay : Span) (x : Docket) : Prop where
  lists : w.Lists s p x
  accounts : x.Accounts
  punctual : x.Punctual
  continues : before.Continues x.scheduler
  course : x.Course k actions due delay

namespace OnCourse

/-- A step makes the run later by its length at most, and only if others hold the worker. -/
theorem step (on : w.OnCourse s p k before actions due delay x) (h : Reachable w)
    (step : Step w w') (more : Span) (holds : ¬w.Elsewhere s p k ∨ w'.now ≤ w.now + more) :
    ∃ x', w'.OnCourse s p k before actions due (delay + more) x' := by
  obtain ⟨x', lists, later⟩ := on.lists.next h step
  obtain ⟨accounts, continues⟩ := on.accounts.later later
  refine ⟨x', lists, accounts, on.punctual.later later, on.continues.trans continues, ?_⟩
  refine on.course.later on.accounts on.punctual later more ?_
  rw [lists.now, on.lists.now]
  refine holds.imp_left fun free holder held => ?_
  obtain ⟨pool, task, till, hp, stage, rfl⟩ := held
  by_contra other
  exact free ⟨pool, task, till, hp, stage, fun ⟨mine, place⟩ => other ⟨task, if_pos mine, place⟩⟩

theorem later (on : w.OnCourse s p k before actions due delay x) (h : Reachable w)
    (run : LaterHeld s p k w length w') :
    ∃ x', w'.OnCourse s p k before actions due (delay + length) x' := by
  induction run with
  | refl => exact ⟨x, on⟩
  | own run step free ih =>
    obtain ⟨x', on'⟩ := ih
    exact on'.step (h.later run.later) step 0 (.inl free)
  | held run step _ ih =>
    obtain ⟨x', on'⟩ := ih
    rw [← add_assoc]
    exact on'.step (h.later run.later) step _ (.inr (Nat.sub_le_iff_le_add'.mp le_rfl))

/-- In a quiet world a run whose worker nobody else holds has something to wait for. -/
theorem awaits (on : w.OnCourse s p k before actions due delay x) (h : Reachable w)
    (quiet : w.move? = none) (free : ¬w.Elsewhere s p k) {task : Task} (ht : task ∈ x.tasks)
    (place : task.place? = some k) :
    w.now < Action.doneAt (task.actions x.upcoming) (x.hand.goesOn x.now task) := by
  obtain ⟨pool, hp, -, hand, others⟩ := on.lists.pool
  have there : task ∈ pool.worker.tasks := by
    rw [Docket.tasks, hand, others, Worker.Stage.of_tasks, ← Multiset.filter_add] at ht
    exact (Multiset.mem_filter.mp ht).1
  obtain ⟨holder, till, stage, ahead⟩ | ⟨due, hd, ahead, -⟩ :=
    due_of_still h.sound (move?_none quiet).1 hp there
  · have own : holder.scheduler? = some s ∧ holder.place? = some k := by
      by_contra other
      exact free ⟨pool, holder, till, hp, stage, other⟩
    have holds : x.hand = .held holder till := hand.trans (Worker.Stage.of_held.mpr ⟨stage, own.1⟩)
    have member : holder ∈ x.tasks := by
      rw [Docket.tasks, holds]
      exact Multiset.mem_add.mpr (.inl (Multiset.mem_singleton_self holder))
    obtain rfl := on.accounts.only ht place member own.2
    rw [holds, Worker.Stage.goesOn_held]
    exact ahead.trans_le (Action.le_doneAt _ _)
  · exact ahead.trans_le (Task.le_doneAt_of_due hd x.upcoming place _)

theorem proceeds (on : w.OnCourse s p k before actions due delay x) (h : Reachable w) :
    ∃ scheduler run, w.schedulers[s]? = some scheduler ∧ scheduler.runs[k]? = some run ∧
      w.Proceeds s p k before actions due delay scheduler run := by
  have hr := List.getElem?_eq_getElem on.course.begun
  refine ⟨x.scheduler, _, on.lists.scheduler, hr, on.continues,
    fun ending => on.course.ended _ ending hr, fun owned pool hp => ?_, fun goes unclosed => ?_⟩
  · by_contra closing
    cases owned.symm.trans (h.sound.owned p pool hp (eq_true_of_ne_false closing))
  · obtain ⟨pool, hp, closing, -⟩ := on.lists.pool
    obtain ⟨task, ht, place⟩ := on.accounts.exists_task (closing.trans (unclosed pool hp)) hr goes
    obtain ⟨remains, on_time⟩ := on.course.goes task ht place
    refine ⟨task, x.upcoming, on.lists.upcoming, ?_, remains, ?_, fun quiet free => ?_⟩
    · rw [on.lists.live]
      exact on.accounts.filter_place ht place
    · calc w.now
        _ = x.now := on.lists.now.symm
        _ ≤ x.hand.goesOn x.now task := on.punctual.now_le task
        _ ≤ Action.doneAt (task.actions x.upcoming) (x.hand.goesOn x.now task) :=
          Action.le_doneAt ..
        _ ≤ due + delay := on_time.late
    · exact (on.awaits h quiet free ht place).trans_le on_time.late

end OnCourse

/-- The run has not ended, or returned when it took up the call of its cache with this number. -/
def TakesUp (w : World) (c : CacheId) (s : SchedulerId) (k n : Nat) : Prop :=
  ∃ cache scheduler, w.caches[c]? = some cache ∧ w.schedulers[s]? = some scheduler ∧
    ∀ run ending, scheduler.runs[k]? = some run → run.ending = some ending →
      ∃ time, ending = .returned time ∧ cache.TookUp n time

theorem Shows.takesUp {c : CacheId} {chain : Chain} (shows : w.Shows c chain) (h : Reachable w)
    {task : Task} (ht : task ∈ chain.live) (place : task.place? = some k) {run : Run}
    (hr : chain.scheduler.runs[k]? = some run) (goes : run.ending = none) :
    ∃ n, (∀ call, chain.cache.calls[n]? = some call → call.concluded = none) ∧
      ∀ w', Later w w' → w'.TakesUp c chain.cache.scheduler k n := by
  obtain ⟨start, sound⟩ := shows.sound h
  obtain ⟨n, loads, waits⟩ := sound.loads ht place (List.getElem?_eq_some_iff.mp hr).1
    fun other ho => Option.some.inj (hr.symm.trans ho) ▸ goes
  refine ⟨n, waits, fun w' later => ?_⟩
  obtain ⟨chain', shows', later'⟩ := shows.later h.sound later
  have held : Chain.Later (¬False) chain chain' := later'.mono fun _ => id
  have there := shows'.scheduler
  rw [(Chain.Later.follows later').scheduler] at there
  refine ⟨chain'.cache, chain'.scheduler, shows'.cache, there, fun run' ending hr' ended => ?_⟩
  obtain ⟨call, time, hc, taken, returned⟩ := (loads.later sound held).ended run' ending hr' ended
  exact ⟨time, returned, (sound.later held).tookUp hc taken⟩

/-- A run that has begun goes its way, whoever shuts its scheduler down or lets go of anything. -/
theorem shutdown_spares_runs (h : Reachable w) (employs : w.Employs s p) {pool : Pool}
    (hp : w.pools[p]? = some pool) (unclosed : pool.worker.closing = false) {scheduler : Scheduler}
    (hs : w.schedulers[s]? = some scheduler) {run : Run} (hr : scheduler.runs[k]? = some run)
    (goes : run.ending = none) :
    (∃ task call, Announces w.caches s call ∧ (w.live s).filter (·.place? = some k) = {task} ∧
      ∀ length w', LaterHeld s p k w length w' → ∃ scheduler' run',
        w'.schedulers[s]? = some scheduler' ∧ scheduler'.runs[k]? = some run' ∧
          w'.Proceeds s p k scheduler (task.actions call)
            (Action.doneAt (task.actions call) (w.goesOn p task)) length scheduler' run') ∧
      ∀ (c : CacheId) cache, w.caches[c]? = some cache → cache.scheduler = s →
        ∃ n, (∀ call, cache.calls[n]? = some call → call.concluded = none) ∧
          ∀ w', Later w w' → w'.TakesUp c s k n := by
  obtain ⟨first, x, fresh, history, lists⟩ := employs.docket
  obtain rfl := Option.some.inj (lists.scheduler.symm.trans hs)
  have accounts := (fresh.accounts.later history).1
  have punctual := fresh.punctual.later history
  have open' : x.closing = false := by
    obtain ⟨pool', hp', closing, -⟩ := lists.pool
    obtain rfl := Option.some.inj (hp.symm.trans hp')
    exact closing.trans unclosed
  obtain ⟨task, ht, place⟩ := accounts.exists_task open' hr goes
  refine ⟨⟨task, x.upcoming, lists.upcoming, ?_, fun length w' later => ?_⟩,
    fun c cache hc own => ?_⟩
  · rw [lists.live]
    exact accounts.filter_place ht place
  · obtain ⟨x', on⟩ := OnCourse.later
      ⟨lists, accounts, punctual, .refl _, accounts.course ht place⟩ h later
    rw [zero_add, lists.goesOn (lists.mine ht)] at on
    exact on.proceeds (h.later later.later)
  · subst own
    obtain ⟨chain, shows, rfl⟩ := h.sound.shows hc
    have same := Option.some.inj (shows.scheduler.symm.trans lists.scheduler)
    rw [← lists.live, ← shows.live] at ht
    exact shows.takesUp h ht place (same ▸ hr) goes

def napFirst : Nat → List Action
  | 0 => [.pause (.rest (Span.ofMillis 10))]
  | _ => [.pause (.hold (Span.ofMillis 100))]

def firstRuns (w : World) : Option (List (Instant × Option Instant)) :=
  w.schedulers[0]?.map (·.runs.map Run.interval)

/-- Shut down while it rests, the run returns when it has rested. -/
theorem shutdown_spares_runs_napping : ∃ w, Reachable w ∧
    w.schedulers[0]?.map (·.isShutDown) = some true ∧
    firstRuns w = some [(Instant.start, none)] ∧ ∀ w', LaterHeld 0 0 0 w 0 w' →
      ∃ scheduler run, w'.schedulers[0]? = some scheduler ∧ scheduler.runs[0]? = some run ∧
        ∀ ending, run.ending = some ending →
          ending = .returned (Instant.start + Span.ofMillis 10) := by
  let w := ((moves 8 (asked napFirst)).shutdown none 0).1
  have before := reachable_begun napFirst
  have later : Later (begun napFirst) w :=
    .tail (.trans (.single (begun_asked napFirst)) (later_moves 8 _)) (.shutdown 0)
  have opened : (begun napFirst).schedulers[0]?.map (·.pool) = some (some 0) := rfl
  have kept : w.pools[0]?.map (·.worker.closing) = some false := by decide +kernel
  have runs : w.schedulers[0]?.map (fun scheduler => (scheduler.isShutDown,
      scheduler.runs[0]?.map (·.ending))) = some (true, some none) := by decide +kernel
  have rests : (w.live 0).filter (·.place? = some 0) =
      {.script ⟨0, 0⟩ [.pause (.till (Instant.start + Span.ofMillis 10))]} := by decide +kernel
  have ends : Action.doneAt [.pause (.till (Instant.start + Span.ofMillis 10))] (w.goesOn 0
      (.script ⟨0, 0⟩ [.pause (.till (Instant.start + Span.ofMillis 10))])) =
        Instant.start + Span.ofMillis 10 := by decide +kernel
  obtain ⟨scheduler₀, hs₀, opened⟩ := Option.map_eq_some_iff.mp opened
  obtain ⟨pool, hp, kept⟩ := Option.map_eq_some_iff.mp kept
  obtain ⟨scheduler, hs, runs⟩ := Option.map_eq_some_iff.mp runs
  rw [Prod.mk.injEq] at runs
  obtain ⟨run, hr, goes⟩ := Option.map_eq_some_iff.mp runs.2
  have employs : w.Employs 0 0 := ⟨_, scheduler₀, before, later, hs₀, opened⟩
  obtain ⟨⟨task, call, -, only, spared⟩, -⟩ :=
    shutdown_spares_runs (before.later later) employs hp kept hs hr goes
  obtain rfl := Multiset.singleton_inj.mp (only.symm.trans rests)
  refine ⟨w, before.later later, by rw [hs]; exact congrArg some runs.1, by decide +kernel,
    fun w' run' => ?_⟩
  obtain ⟨scheduler', run', hs', hr', proceeds⟩ := spared 0 w' run'
  refine ⟨scheduler', run', hs', hr', fun ending ended => ?_⟩
  have how := proceeds.ended ending ended
  rw [Task.actions, ends] at how
  cases ending with
  | returned time => exact congrArg Ending.returned (le_antisymm how.2.late how.2.early)
  | panicked => simp [Ending.Of] at how

/-- A scheduler that is the last to hold its pool takes a run with it that rests. And a run can be
done sooner for a shutdown, since another one that waited does not hold the worker any more. -/
theorem shutdown_touches_runs :
    (∃ w, Reachable w ∧ firstRuns w = some [(Instant.start, none)] ∧
      (w.advance (Span.ofMillis 20)).map firstRuns =
        some (some [(Instant.start, some (Instant.start + Span.ofMillis 10))]) ∧
      ((w.shutdown none 0).1.advance (Span.ofMillis 20)).map firstRuns =
        some (some [(Instant.start, none)])) ∧
    ∃ w, Reachable w ∧ firstRuns w = some [(Instant.start, none)] ∧
      (w.advance (Span.ofMillis 200)).map firstRuns =
        some (some [(Instant.start, some (Instant.start + Span.ofMillis 105)),
          (Instant.start + Span.ofMillis 5, some (Instant.start + Span.ofMillis 105))]) ∧
      ((w.shutdown none 0).1.advance (Span.ofMillis 200)).map firstRuns =
        some (some [(Instant.start, some (Instant.start + Span.ofMillis 10))]) := by
  refine ⟨⟨(moves 8 (begun napFirst)).onPool 0 (fun pool => { pool with registered := false })
    |>.release 0, ?_, ?_, ?_, ?_⟩, moves 8 (asked napFirst), ?_, ?_, ?_, ?_⟩
  · have begins := later_moves 8 (begun napFirst)
    exact (reachable_begun napFirst).later (begins.tail (.unregister 0))
  any_goals decide +kernel
  have asks : Later (begun napFirst) (asked napFirst) := .single (begun_asked napFirst)
  exact (reachable_begun napFirst).later (asks.trans (later_moves 8 (asked napFirst)))

end World
end TokenKeeper
