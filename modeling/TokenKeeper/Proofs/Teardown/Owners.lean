import TokenKeeper.Proofs.World.Registry
/-! Who holds a pool. A pool is torn down just when nothing holds it any more, which is at the step
that lets go of it last, and no scheduler gets a run accepted on such a pool. -/
namespace TokenKeeper.World
variable {w w' : World} {p q : PoolId}

def isTornDown (w : World) (p : PoolId) : Bool := w.pools[p]?.any (·.worker.closing)

theorem isTornDown_iff : w.isTornDown p = true ↔
    ∃ pool, w.pools[p]? = some pool ∧ pool.worker.closing = true := Option.any_eq_true ..

/-- A pool that is there is held, or torn down. -/
def Tended (w : World) (p : PoolId) : Prop :=
  ∀ pool, w.pools[p]? = some pool → pool.worker.closing = true ∨ w.isOwned p = true

structure Holds (w w' : World) (p : PoolId) : Prop where
  pools : ∀ pool', w'.pools[p]? = some pool' → ∃ pool, w.pools[p]? = some pool ∧
    (pool.worker.closing = true → pool'.worker.closing = true) ∧
    (pool.isKept = true → pool'.isKept = true)
  schedulers : ∀ (s : SchedulerId) scheduler, w.schedulers[s]? = some scheduler →
    scheduler.pool = some p →
      ∃ scheduler', w'.schedulers[s]? = some scheduler' ∧ scheduler'.pool = some p

theorem Tended.keep (h : w.Tended p) (holds : Holds w w' p) : w'.Tended p := by
  intro pool' hp'
  obtain ⟨pool, hp, closing, kept⟩ := holds.pools pool' hp'
  rcases h pool hp with closed | owned
  · exact .inl (closing closed)
  · right
    rw [isOwned_iff] at owned ⊢
    rcases owned with ⟨held, hq, here⟩ | ⟨s, scheduler, hs, on⟩
    · obtain rfl := Option.some.inj (hp.symm.trans hq)
      exact .inl ⟨pool', hp', kept here⟩
    · obtain ⟨scheduler', hs', on'⟩ := holds.schedulers s scheduler hs on
      exact .inr ⟨s, scheduler', hs', on'⟩

namespace Holds

theorem of_pools (pools : w'.pools = w.pools) (schedulers : w'.schedulers = w.schedulers) :
    Holds w w' p :=
  ⟨fun pool' hp => ⟨pool', pools ▸ hp, id, id⟩,
    fun _ scheduler hs on => ⟨scheduler, schedulers ▸ hs, on⟩⟩

theorem note (w : World) (notice : Notice) (p : PoolId) : Holds w (w.note notice) p :=
  of_pools (w.note_pools _) (w.note_schedulers _)

theorem trans {first second third : World} (h : Holds first second p)
    (h' : Holds second third p) : Holds first third p where
  pools := fun pool'' hp'' => by
    obtain ⟨pool', hp', closing', kept'⟩ := h'.pools pool'' hp''
    obtain ⟨pool, hp, closing, kept⟩ := h.pools pool' hp'
    exact ⟨pool, hp, closing' ∘ closing, kept' ∘ kept⟩
  schedulers := fun s scheduler hs on => by
    obtain ⟨scheduler', hs', on'⟩ := h.schedulers s scheduler hs on
    exact h'.schedulers s scheduler' hs' on'

theorem onPool (w : World) {q : PoolId} {f : Pool → Pool}
    (each : ∀ pool, w.pools[q]? = some pool → q = p →
      (pool.worker.closing = true → (f pool).worker.closing = true) ∧
      (pool.isKept = true → (f pool).isKept = true)) : Holds w (w.onPool q f) p := by
  refine ⟨fun pool' hp' => ?_, fun _ scheduler hs on => ⟨scheduler, hs, on⟩⟩
  obtain ⟨pool, hp, rfl⟩ := getElem?_modify_cases hp'
  refine ⟨pool, hp, ?_⟩
  split
  · rename_i same
    exact each pool (same ▸ hp) same
  · exact ⟨id, id⟩

theorem elsewhere (w : World) {q : PoolId} (f : Pool → Pool) (other : q ≠ p) :
    Holds w (w.onPool q f) p := onPool w fun _ _ same => absurd same other

theorem onScheduler (w : World) (s : SchedulerId) {f : Scheduler → Scheduler}
    (keeps : ∀ scheduler, w.schedulers[s]? = some scheduler → scheduler.pool = some p →
      (f scheduler).pool = some p) : Holds w (w.onScheduler s f) p := by
  refine ⟨fun pool hp => ⟨pool, hp, id, id⟩, fun s' scheduler hs on => ?_⟩
  by_cases same : s = s'
  · subst same
    exact ⟨f scheduler, by simp only [World.onScheduler, List.getElem?_modify_eq, hs]; rfl,
      keeps scheduler hs on⟩
  · exact ⟨scheduler, by
      simp only [World.onScheduler, List.getElem?_modify_ne _ _ same, hs], on⟩

theorem release (w : World) (q : PoolId) : Holds w (w.release q) p := by
  rcases w.release_eq q with same | ⟨_, -, -, closed⟩
  · rw [same]
    exact of_pools rfl rfl
  · rw [closed]
    exact (note w _ p).trans (onPool _ fun _ _ _ => ⟨fun _ => rfl, id⟩)

theorem submit (w : World) (q : PoolId) (task : Task) : Holds w (w.submit none q task) p := by
  refine onPool w fun pool _ _ => ⟨fun closing => ?_, id⟩
  obtain ⟨inbox, eq⟩ := pool.worker.submitAll_eq [task]
  simp only [reduceCtorEq, if_false, Worker.submit, eq]
  exact closing

end Holds

theorem tended_release (w : World) (p : PoolId) : (w.release p).Tended p := by
  intro pool hp
  rcases w.release_eq p with same | ⟨_, -, -, closed⟩
  · rw [same] at hp ⊢
    -- The pool is left as it is only if it is held or closes already.
    unfold release at same
    rw [hp] at same
    dsimp only at same
    split at same
    · rename_i spared
      exact (Bool.or_eq_true _ _ ▸ spared).symm
    · have here := congrArg (fun w' : World => w'.pools[p]?) same
      simp only [World.onWorker, World.onPool, List.getElem?_modify_eq, note_pools, hp] at here
      exact .inl (congrArg (·.worker.closing) (Option.some.inj here)).symm
  · rw [closed] at hp
    obtain ⟨_, -, rfl⟩ := Option.map_eq_some_iff.mp ((List.getElem?_modify_eq ..).symm.trans hp)
    exact .inl rfl

theorem Tended.release (h : w.Tended q) (p : PoolId) : (w.release p).Tended q :=
  h.keep (.release w p)

theorem tended_given {f : Pool → Pool} (h : w.Tended q) : ((w.onPool p f).release p).Tended q := by
  by_cases same : p = q
  · exact same ▸ tended_release _ p
  · exact (h.keep (.elsewhere w f same)).release p

theorem Deed.lets_go {task : Task} {added : Multiset Task} {schedulers : List Scheduler}
    {caches : List Cache} (deed : Deed w task added schedulers caches) :
    (∀ (s : SchedulerId) scheduler, w.schedulers[s]? = some scheduler →
      ∃ scheduler', schedulers[s]? = some scheduler' ∧ scheduler'.pool = scheduler.pool) ∨
    ∃ run rest scheduler p, task = .script run (.shutdown :: rest) ∧
      w.schedulers[run.scheduler]? = some scheduler ∧ scheduler.pool = some p ∧
      scheduler.dropped = false ∧ schedulers = w.schedulers.modify run.scheduler (·.letGo) := by
  have changed {s : SchedulerId} {f : Scheduler → Scheduler}
      (keeps : ∀ scheduler : Scheduler, (f scheduler).pool = scheduler.pool) :
      ∀ (s' : SchedulerId) scheduler, w.schedulers[s']? = some scheduler →
        ∃ scheduler', (w.schedulers.modify s f)[s']? = some scheduler' ∧
          scheduler'.pool = scheduler.pool := by
    intro s' scheduler hs
    rw [List.getElem?_modify, hs]
    refine ⟨_, rfl, ?_⟩
    split
    · exact keeps scheduler
    · rfl
  cases deed with
  | enterScript | enterRefresh | enterDropped | abandon | leave | panic | schedule | start
  | conclude | concludeLast => exact .inl (changed fun _ => rfl)
  | wait | pause | resume | inVain | call | endCall | answer | leaveGuest =>
    exact .inl fun _ scheduler hs => ⟨scheduler, hs, rfl⟩
  | shutdown hs on kept =>
    obtain ⟨p, on⟩ := Scheduler.not_isShutDown_iff.mp on
    exact .inr ⟨_, _, _, p, rfl, hs, on, kept, rfl⟩

theorem work_shutdown {pool : Pool} {run : RunId} {rest : List Action} {scheduler : Scheduler}
    (hp : w.pools[p]? = some pool)
    (stage : pool.worker.stage = .busy (.script run (.shutdown :: rest)))
    (hs : w.schedulers[run.scheduler]? = some scheduler) (on : scheduler.pool = some p)
    (kept : scheduler.dropped = false) : ∃ notice : Notice, w.work p =
      (((w.callOff (some p) run.scheduler p).note notice).release p).goOn p (.script run rest) := by
  obtain ⟨notice, -, shut⟩ := shutdown_open (some p) hs on
  refine ⟨notice, ?_⟩
  unfold work
  simp only [hp, stage, carryOn, perform, unlessDropped_eq hs, kept, shut]
  rfl

theorem Sound.work_tended (h : w.Sound) (hp : ∃ pool, w.pools[p]? = some pool)
    (tended : ∀ q, w.Tended q) : (w.work p).Tended q := by
  obtain ⟨pool, hp⟩ := hp
  rcases h.work_cases hp with ⟨task, stage, -, added, turned, deed⟩ | own
  · obtain ⟨f, pools, carries⟩ := turned.pools
    have goes : ∀ pool, w.pools[p]? = some pool → p = q →
        (pool.worker.closing = true → (f pool).worker.closing = true) ∧
        (pool.isKept = true → (f pool).isKept = true) := fun pool hp _ =>
      have carries := (carries pool hp).1
      ⟨carries.closing, fun kept => carries.isKept.trans kept⟩
    have before : ∀ pool', (w.work p).pools[q]? = some pool' → ∃ pool, w.pools[q]? = some pool ∧
        (pool.worker.closing = true → pool'.worker.closing = true) ∧
        (pool.isKept = true → pool'.isKept = true) := pools ▸ (Holds.onPool w goes).pools
    rcases Deed.lets_go deed with keeps | ⟨run, rest, scheduler, p', rfl, hs, on, kept, gone⟩
    · refine (tended q).keep ⟨before, fun s scheduler hs on => ?_⟩
      obtain ⟨scheduler', hs', same⟩ := keeps s scheduler hs
      exact ⟨scheduler', hs', same.trans on⟩
    · have home := (h.tasks p pool hp (.script run (.shutdown :: rest))
        (by rw [Worker.tasks_busy stage]; simp)).2
      obtain rfl := home _ scheduler p' rfl hs on
      by_cases other : p' = q
      · subst other
        obtain ⟨notice, shut⟩ := work_shutdown hp stage hs on kept
        rw [shut]
        exact (tended_release _ p').keep (.onPool _ fun _ _ _ => ⟨id, id⟩)
      · refine (tended q).keep ⟨before, gone ▸ (Holds.onScheduler w run.scheduler ?_).schedulers⟩
        intro there hs' on'
        obtain rfl := Option.some.inj (hs.symm.trans hs')
        exact absurd (Option.some.inj (on.symm.trans on')) other
  · rw [own]
    refine (tended q).keep (.onPool w fun pool hp _ => ⟨fun closing => ?_, id⟩)
    exact (Worker.advance_sound (h.workers pool (List.mem_of_getElem? hp))).1.closing.trans closing

theorem Tended.shutdown (h : w.Tended q) (s : SchedulerId) : (w.shutdown none s).1.Tended q := by
  rcases w.shutdown_cases none s with same | ⟨scheduler, p, hs, on, notice, -, shut⟩
  · rwa [same]
  · rw [shut]
    by_cases same : p = q
    · exact same ▸ tended_release _ p
    · have called : Holds w (w.callOff none s p) q := by
        refine .trans (.onScheduler w s fun other hs' on' => ?_) (.elsewhere _ _ same)
        obtain rfl := Option.some.inj (hs.symm.trans hs')
        exact absurd (Option.some.inj (on.symm.trans on')) same
      exact (h.keep (called.trans (.note _ notice q))).release p

theorem Holds.requested {s : SchedulerId} (asked : Requested w none s w') : Holds w w' p := by
  cases asked with
  | unknown => exact .of_pools rfl rfl
  | vain notice => exact .note w notice p
  | @accepted _ q _ _ task _ _ f keeps notice =>
    have submitted : Holds w ((w.submit none q task).onScheduler s f) p :=
      .trans (.submit w q task) (.onScheduler _ s fun _ _ on => (keeps _).2.trans on)
    exact submitted.trans (.note _ notice p)

theorem Tended.append (h : w.Tended p) (pools : List Pool) (schedulers : List Scheduler)
    (caches : List Cache) (kept : ∀ pool ∈ pools, pool.isKept = true) :
    Tended { w with
      pools := w.pools ++ pools
      schedulers := w.schedulers ++ schedulers
      caches := caches } p := by
  intro pool hp
  dsimp only at hp
  rw [List.getElem?_append] at hp
  split at hp
  · rename_i old
    refine Tended.keep h ⟨fun pool' hp' => ⟨pool', ?_, id, id⟩, fun s scheduler hs on => ?_⟩ pool ?_
    · exact (List.getElem?_append_left old).symm.trans hp'
    · have bound := (List.getElem?_eq_some_iff.mp hs).1
      exact ⟨scheduler, (List.getElem?_append_left bound).trans hs, on⟩
    · exact (List.getElem?_append_left old).trans hp
  · rename_i new
    refine .inr (isOwned_iff.mpr (.inl ⟨pool, ?_, kept pool (List.mem_of_getElem? hp)⟩))
    exact (List.getElem?_append_right (Nat.not_lt.mp new)).trans hp

theorem Step.tended (h : w.Sound) (tended : ∀ q, w.Tended q) (step : Step w w') :
    ∀ q, w'.Tended q := by
  intro q
  cases step with
  | move moved =>
    obtain ⟨p, pool, hp, -, rfl⟩ | ⟨-, i, -, -, -, -, -, rfl⟩ := move?_cases moved
    · exact h.work_tended ⟨pool, hp⟩ tended
    · exact (tended q).keep (.of_pools (w.attend_pools i) (w.attend_schedulers i))
  | tick | expect | setOutage | dropCache => exact (tended q).keep (.of_pools rfl rfl)
  | arrive => exact (tended q).keep (.of_pools (w.attend_pools _) (w.attend_schedulers _))
  | note => exact (tended q).keep (.note w _ q)
  | openPool identity =>
    have added := (tended q).append [{ identity := identity, worker := .fresh w.now }] [] w.caches
      (by simp [Pool.isKept])
    rwa [List.append_nil] at added
  | keepHandle =>
    refine (tended q).keep (.onPool w fun pool _ _ => ⟨id, fun _ => ?_⟩)
    simp [Pool.isKept]
  | giveHandle p | unregister p => exact tended_given (tended q)
  | staff => exact (tended q).keep (.onPool w fun _ _ _ => ⟨id, id⟩)
  | inquire p | occupy p => exact (tended q).keep (.submit w p _)
  | @addScheduler p _ _ _ program =>
    have added := (tended q).append [] [{ job := .script program, pool := some p }] w.caches
      (List.forall_mem_nil _)
    rw [List.append_nil] at added
    exact added
  | start => exact (tended q).keep (.requested (start_requested w none _))
  | schedule => exact (tended q).keep (.requested (schedule_requested w none _ _))
  | shutdown s => exact (tended q).shutdown s
  | dropScheduler => exact (tended q).keep (.onScheduler w _ fun _ _ => id)
  | @openCache config issuer _ _ opens =>
    obtain ⟨p, opened, had, -, rfl⟩ := openCache_ok opens
    have found : opened.Tended q := by
      rcases poolFor_ok had with ⟨rfl | ⟨notice, -, rfl⟩, -⟩
      · exact tended q
      · have added := (tended q).append [{ identity := config.pool, worker := .fresh w.now }] []
          w.caches (by simp [Pool.isKept])
        rw [List.append_nil] at added
        exact added.keep (.note _ notice q)
    have added : (opened.withCache p config issuer).Tended q := by
      have added := found.append [] [{ job := .refresh opened.caches.length, pool := some p }]
        (opened.withCache p config issuer).caches (List.forall_mem_nil _)
      rw [List.append_nil] at added
      exact added
    exact added.keep (.requested (start_requested _ none _))

end TokenKeeper.World
