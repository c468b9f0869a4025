import TokenKeeper.Proofs.Docket.Begun
/-! What becomes of the submissions of a scheduler, whoever calls it: each of them waits, is
executing, has ended or has been dropped, and those that wait for a delay never begin after a
shutdown. -/
namespace TokenKeeper

namespace World
variable {w w' : World} {s : SchedulerId} {p : PoolId} {x : Docket} {scheduler : Scheduler}
  {n : Nat}

/-- The submission was accepted while the scheduler was not started, so it has a delay. -/
def AskedWithDelay (w : World) (s : SchedulerId) (n : Nat) : Prop :=
  ∃ w₀ w₁ before after, Reachable w₀ ∧ Later w₀ w₁ ∧ Later w₁ w ∧
    w₀.schedulers[s]? = some before ∧ w₁.schedulers[s]? = some after ∧
    before.accepted ≤ n ∧ n < after.accepted ∧ after.started = before.started

def HasBegun (w : World) (s : SchedulerId) (n : Nat) : Prop :=
  ∃ scheduler, w.schedulers[s]? = some scheduler ∧ n ∈ scheduler.runs.map (·.submission)

/-- What is true of a scheduler at any time. -/
structure Fate (w : World) (s : SchedulerId) (scheduler : Scheduler) : Prop where
  employed : ∃ p, w.Employs s p
  /-- Nothing is lost unless the pool closes. -/
  books : ∀ p, w.Employs s p → ∃ pool, w.pools[p]? = some pool ∧
    w.live s = pool.worker.tasks.filter (·.scheduler? = some s) ∧
    scheduler.Accounts pool.worker.closing (w.live s)
  once : (scheduler.runs.map (·.submission)).Nodup
  start : ∀ actor, (w.start actor s).schedulers = w.schedulers.modify s Scheduler.startOnce
  schedule : ∀ actor delay,
    (w.schedule actor s delay).schedulers = w.schedulers.modify s Scheduler.acceptOpen
  shutdown : ∀ actor, (w.shutdown actor s).2 = !scheduler.isShutDown ∧
    (w.shutdown actor s).1.schedulers = w.schedulers.modify s Scheduler.letGo
  called : ∀ w' scheduler', Step w w' → w'.schedulers[s]? = some scheduler' →
    scheduler'.pool ≠ scheduler.pool → CallsShutdown w w' s
  later : ∀ w', Later w w' → ∃ scheduler', w'.schedulers[s]? = some scheduler' ∧
    scheduler.Continues scheduler'
  never : scheduler.isShutDown = true → ∀ n, w.AskedWithDelay s n → ¬w.HasBegun s n →
    ∀ w', Later w w' → ¬w'.HasBegun s n

theorem Reachable.accounts (h : Reachable w) (hs : w.schedulers[s]? = some scheduler) :
    ∃ p x, w.Employs s p ∧ w.Lists s p x ∧ x.scheduler = scheduler ∧ x.Accounts := by
  obtain ⟨p, first, x, employs, fresh, run, lists⟩ := h.docket hs
  exact ⟨p, x, employs, lists, Option.some.inj (lists.scheduler.symm.trans hs),
    (fresh.accounts.later run).1⟩

theorem Employs.accounts (employs : w.Employs s p) : ∃ x, w.Lists s p x ∧ x.Accounts := by
  obtain ⟨first, x, fresh, run, lists⟩ := employs.docket
  exact ⟨x, lists, (fresh.accounts.later run).1⟩

theorem AskedWithDelay.docket (asked : w.AskedWithDelay s n) :
    ∃ p x, w.Lists s p x ∧ x.Accounts ∧ x.Delayed n := by
  obtain ⟨w₀, w₁, before, after, h, later₁, later, hs₀, hs₁, from', to', same⟩ := asked
  obtain ⟨p, x₀, -, lists₀, rfl, accounts₀⟩ := h.accounts hs₀
  obtain ⟨x₁, lists₁, run₁⟩ := lists₀.later h later₁
  obtain ⟨x, lists, run₂⟩ := lists₁.later (h.later later₁) later
  obtain rfl := Option.some.inj (lists₁.scheduler.symm.trans hs₁)
  have accounts₁ := (accounts₀.later run₁).1
  refine ⟨p, x, lists, (accounts₁.later run₂).1, ?_⟩
  have unknown : x₀.Delayed n := fun s' member =>
    absurd (accounts₀.waits member rfl) from'.not_gt
  obtain delayed | ⟨-, first, started⟩ := unknown.later accounts₀ run₁
  · obtain delayed | ⟨le, -⟩ := delayed.later accounts₁ run₂
    · exact delayed
    · exact absurd le to'.not_ge
  · cases (started.symm.trans same).trans first

theorem Lists.hasBegun_iff (lists : w.Lists s p x) :
    w.HasBegun s n ↔ n ∈ x.scheduler.runs.map (·.submission) := by
  unfold HasBegun
  rw [lists.scheduler]
  exact ⟨fun ⟨_, same, run⟩ => Option.some.inj same ▸ run, fun run => ⟨_, rfl, run⟩⟩

/-- Submissions of any scheduler, whatever its job does and whoever calls it. -/
theorem fate_of_submissions (h : Reachable w) (hs : w.schedulers[s]? = some scheduler) :
    w.Fate s scheduler where
  employed := by
    obtain ⟨p, -, employs, -⟩ := h.accounts hs
    exact ⟨p, employs⟩
  books := by
    intro p employs
    obtain ⟨x, lists, accounts⟩ := employs.accounts
    obtain rfl := Option.some.inj (lists.scheduler.symm.trans hs)
    obtain ⟨pool, hp, closing, hand, others⟩ := lists.pool
    refine ⟨pool, hp, ?_, closing ▸ lists.live ▸ accounts⟩
    rw [lists.live, Docket.tasks, hand, others, Worker.Stage.of_tasks, ← Multiset.filter_add]
    rfl
  once := by
    obtain ⟨p, x, -, -, rfl, accounts⟩ := h.accounts hs
    exact accounts.runs_nodup
  start := fun actor => start_schedulers w actor s
  schedule := fun actor delay => schedule_schedulers w actor s delay
  shutdown := fun actor => shutdown_schedulers actor hs
  called := fun w' scheduler' step hs' other => step.calls_shutdown h.sound hs hs' other
  later := by
    intro w' later
    obtain ⟨p, x, -, lists, rfl, accounts⟩ := h.accounts hs
    obtain ⟨x', lists', run⟩ := lists.later h later
    exact ⟨x'.scheduler, lists'.scheduler, (accounts.later run).2⟩
  never := by
    intro off n asked unbegun w' later
    obtain ⟨p, x, lists, accounts, delayed⟩ := asked.docket
    obtain rfl := Option.some.inj (lists.scheduler.symm.trans hs)
    rw [lists.hasBegun_iff] at unbegun
    obtain ⟨x', lists', run⟩ := lists.later h later
    have absent : x.Absent n := ⟨off, delayed, unbegun⟩
    rw [lists'.hasBegun_iff]
    exact (absent.later accounts run).runs

def begun (program : Nat → List Action) : World :=
  let opened : World := { pools := [{ identity := ⟨"pool", true⟩, worker := .fresh .start }] }
  (opened.addScheduler 0 (.script program)).2.start none 0

theorem reachable_begun (program : Nat → List Action) : Reachable (begun program) := by
  let opened : World := { pools := [{ identity := ⟨"pool", true⟩, worker := .fresh .start }] }
  have first : Later {} opened := .single (.openPool ⟨"pool", true⟩)
  have second : Later {} (opened.addScheduler 0 (.script program)).2 :=
    first.tail (.addScheduler rfl rfl program)
  have third : Later {} ((opened.addScheduler 0 (.script program)).2.start none 0) :=
    second.tail (.start rfl rfl)
  exact reachable_new.later third

def asked (program : Nat → List Action) : World :=
  (begun program).schedule none 0 (Span.ofMillis 5)

theorem begun_asked (program : Nat → List Action) : Step (begun program) (asked program) := by
  have job : (begun program).schedulers[0]?.map (·.job) = some (.script program) := rfl
  obtain ⟨scheduler, hs, job⟩ := Option.map_eq_some_iff.mp job
  exact .schedule hs job _

/-- Shut down while one submission is executing and the other one waits, the scheduler never begins
with that. -/
theorem fate_of_submissions_asked : ∃ w scheduler, Reachable w ∧
    w.schedulers[0]? = some scheduler ∧ w.Fate 0 scheduler ∧
    ∀ w', Later w w' → ¬w'.HasBegun 0 1 := by
  let program : Nat → List Action := fun _ => [.pause (.rest (Span.ofMillis 10))]
  let w := ((moves 8 (asked program)).shutdown none 0).1
  have later : Later (asked program) w := (later_moves 8 (asked program)).tail (.shutdown 0)
  have start := reachable_begun program
  have asks : Later (begun program) (asked program) := .single (begun_asked program)
  have reached : Reachable w := start.later (asks.trans later)
  have shows : w.schedulers[0]?.map (fun scheduler => (scheduler.isShutDown,
      scheduler.runs.map (·.submission))) = some (true, [0]) := by decide +kernel
  have before : (begun program).schedulers[0]?.map (fun s => (s.accepted, s.started)) =
      some (1, true) := by decide +kernel
  have after : (asked program).schedulers[0]?.map (fun s => (s.accepted, s.started)) =
      some (2, true) := by decide +kernel
  obtain ⟨scheduler, hs, shows⟩ := Option.map_eq_some_iff.mp shows
  obtain ⟨scheduler₀, hs₀, before⟩ := Option.map_eq_some_iff.mp before
  obtain ⟨scheduler₁, hs₁, after⟩ := Option.map_eq_some_iff.mp after
  rw [Prod.mk.injEq] at shows before after
  have fate := fate_of_submissions reached hs
  refine ⟨w, scheduler, reached, hs, fate, fate.never shows.1 1 ?_ ?_⟩
  · refine ⟨_, _, scheduler₀, scheduler₁, start, asks, later, hs₀, hs₁, before.1.le, ?_, ?_⟩
    · rw [after.1]
      exact Nat.one_lt_two
    · rw [after.2, before.2]
  · rintro ⟨scheduler', hs', run⟩
    obtain rfl := Option.some.inj (hs.symm.trans hs')
    rw [shows.2, List.mem_singleton] at run
    cases run

end World
end TokenKeeper
