import TokenKeeper.Proofs.Teardown.Owners
/-! What comes to a worker from elsewhere: tasks for its inbox, resting tasks that are woken, and
the end of its pool. A worker whose pool has been torn down is left to itself. -/
namespace TokenKeeper

structure Worker.Reached (before after : Worker Task) : Prop where
  same : ∃ inbox resting closing, after =
    { before with inbox := inbox, resting := resting, closing := closing }
  closed : before.closing = true → after = before

namespace Worker.Reached

theorem refl (worker : Worker Task) : worker.Reached worker := ⟨⟨_, _, _, rfl⟩, fun _ => rfl⟩

theorem trans {first second third : Worker Task} (h : first.Reached second)
    (h' : second.Reached third) : first.Reached third := by
  refine ⟨?_, fun closed => ?_⟩
  · obtain ⟨inbox, resting, closing, rfl⟩ := h.same
    obtain ⟨inbox, resting, closing, rfl⟩ := h'.same
    exact ⟨_, _, _, rfl⟩
  · obtain rfl := h.closed closed
    exact h'.closed closed

theorem submit (worker : Worker Task) (task : Task) : worker.Reached (worker.submit task) := by
  refine ⟨?_, fun closed => ?_⟩
  · obtain ⟨inbox, eq⟩ := worker.submitAll_eq [task]
    exact ⟨inbox, worker.resting, worker.closing, eq⟩
  · unfold Worker.submit submitAll
    rw [if_pos closed]

theorem rouse {worker : Worker Task} (opened : worker.closing = false) (which : Task → Bool) :
    worker.Reached (worker.rouse false which) :=
  ⟨⟨_, _, _, rfl⟩, fun closed => by rw [opened] at closed; cases closed⟩

theorem close (worker : Worker Task) : worker.Reached { worker with closing := true } :=
  ⟨⟨_, _, _, rfl⟩, fun closed => by rw [← closed]⟩

end Worker.Reached

namespace World
variable {w w' : World} {p q : PoolId}

/-- The pool and its worker before and after what others do. A pool that has not been there before
is open, and its worker has nothing at its front. -/
def Reaches (w w' : World) (p : PoolId) : Prop :=
  ∀ pool', w'.pools[p]? = some pool' →
    (w.pools[p]? = none ∧ pool'.worker.closing = false ∧ pool'.worker.front = none) ∨
      ∃ pool, w.pools[p]? = some pool ∧ pool.worker.Reached pool'.worker

namespace Reaches

theorem of_pools (pools : w'.pools = w.pools) : Reaches w w' p :=
  fun pool hp => .inr ⟨pool, pools ▸ hp, .refl _⟩

theorem onPool (w : World) {f : Pool → Pool}
    (each : ∀ pool, w.pools[q]? = some pool → q = p → pool.worker.Reached (f pool).worker) :
    Reaches w (w.onPool q f) p := by
  intro pool' hp'
  obtain ⟨pool, hp, rfl⟩ := getElem?_modify_cases hp'
  refine .inr ⟨pool, hp, ?_⟩
  split
  · rename_i same
    exact each pool (same ▸ hp) same
  · exact .refl _

theorem append (h : Reaches w w' p) {pool : Pool} (opened : pool.worker.closing = false)
    (front : pool.worker.front = none) (more : w'.pools.length = w.pools.length) :
    Reaches w { w' with pools := w'.pools ++ [pool] } p := by
  intro pool' hp'
  rcases getElem?_concat_cases hp' with old | ⟨new, rfl⟩
  · exact h pool' old
  · exact .inl ⟨List.getElem?_eq_none (more ▸ new.ge), opened, front⟩

theorem trans {first second third : World} (h : Reaches first second p)
    (h' : ∀ pool'', third.pools[p]? = some pool'' → ∃ pool', second.pools[p]? = some pool' ∧
      pool'.worker.Reached pool''.worker ∧
      (first.pools[p]? = none → pool''.worker.closing = pool'.worker.closing)) :
    Reaches first third p := by
  intro pool'' hp''
  obtain ⟨pool', hp', reached, opened⟩ := h' pool'' hp''
  rcases h pool' hp' with ⟨nothing, closing, front⟩ | ⟨pool, hp, before⟩
  · obtain ⟨inbox, resting, closing', same⟩ := reached.same
    exact .inl ⟨nothing, (opened nothing).trans closing, by rw [same]; exact front⟩
  · exact .inr ⟨pool, hp, before.trans reached⟩

theorem note (h : Reaches w w' p) (notice : Notice) : Reaches w (w'.note notice) p :=
  h.trans fun pool hp => ⟨pool, w'.note_pools notice ▸ hp, .refl _, fun _ => rfl⟩

theorem submit (h : Reaches w w' p) (q : PoolId) (task : Task) :
    Reaches w (w'.submit none q task) p := by
  refine h.trans fun pool'' hp'' => ?_
  obtain ⟨pool', hp', rfl⟩ := getElem?_modify_cases hp''
  refine ⟨pool', hp', ?_⟩
  simp only [reduceCtorEq, if_false]
  split
  · obtain ⟨inbox, eq⟩ := pool'.worker.submitAll_eq [task]
    refine ⟨.submit _ task, fun _ => ?_⟩
    rw [Worker.submit, eq]
    rfl
  · exact ⟨.refl _, fun _ => rfl⟩

theorem release (h : Reaches w w' p) (there : w'.pools.length = w.pools.length) (q : PoolId) :
    Reaches w (w'.release q) p := by
  rcases w'.release_eq q with same | ⟨pool, -, -, closed⟩
  · rwa [same]
  · rw [closed]
    refine (h.note (.poolClosing pool.threads)).trans fun pool'' hp'' => ?_
    obtain ⟨pool', hp', rfl⟩ := getElem?_modify_cases hp''
    refine ⟨pool', hp', ?_, fun nothing => ?_⟩
    · split
      · exact .close _
      · exact .refl _
    · rw [note_pools] at hp'
      have bound := (List.getElem?_eq_some_iff.mp hp').1
      have beyond := List.getElem?_eq_none_iff.mp nothing
      omega

theorem given (w : World) (q : PoolId) {f : Pool → Pool}
    (keeps : ∀ pool, (f pool).worker = pool.worker) :
    Reaches w ((w.onPool q f).release q) p := by
  refine release (onPool w fun pool _ _ => ?_) (List.length_modify ..) q
  rw [keeps]
  exact .refl _

theorem asked (h : Reaches w w' p) {s : SchedulerId} {w'' : World}
    (asked : Requested w' none s w'') : Reaches w w'' p := by
  cases asked with
  | unknown => exact h
  | vain notice => exact h.note notice
  | @accepted _ q _ _ task _ _ f _ notice =>
    have submitted : Reaches w ((w'.submit none q task).onScheduler s f) p := h.submit q task
    exact submitted.note notice

end Reaches

theorem Sound.open_of_scheduler (h : w.Sound) {s : SchedulerId} {scheduler : Scheduler}
    {pool : Pool} (hs : w.schedulers[s]? = some scheduler) (on : scheduler.pool = some p)
    (hp : w.pools[p]? = some pool) : pool.worker.closing = false := by
  by_contra closing
  have free := h.owned p pool hp (by simpa using closing)
  rw [← Bool.not_eq_true, isOwned_iff] at free
  exact free (.inr ⟨s, scheduler, hs, on⟩)

theorem Sound.shutdown_reaches (h : w.Sound) (s : SchedulerId) :
    Reaches w (w.shutdown none s).1 p := by
  rcases w.shutdown_cases none s with same | ⟨scheduler, q, hs, on, notice, -, shut⟩
  · rw [same]
    exact .of_pools rfl
  · rw [shut]
    have called : Reaches w (w.callOff none s q) p := by
      refine .onPool (w.onScheduler s (·.letGo)) fun pool hp _ => ?_
      exact .rouse (h.open_of_scheduler hs on hp) _
    refine (called.note notice).release ?_ q
    rw [note_pools]
    exact List.length_modify ..

theorem Step.reaches (h : w.Sound) (step : Step w w') (p : PoolId) :
    (∃ pool, w.pools[p]? = some pool ∧ w' = w.work p) ∨ Reaches w w' p := by
  cases step with
  | move moved =>
    obtain ⟨q, pool, hq, -, rfl⟩ | ⟨-, i, -, -, -, -, -, rfl⟩ := move?_cases moved
    · by_cases same : q = p
      · exact .inl ⟨pool, same ▸ hq, same ▸ rfl⟩
      · right
        rcases h.work_cases hq with ⟨_, -, -, _, turned, -⟩ | own
        · obtain ⟨f, pools, -⟩ := turned.pools
          intro pool' hp'
          rw [pools, List.getElem?_modify_ne _ _ same] at hp'
          exact .inr ⟨pool', hp', .refl _⟩
        · rw [own]
          exact .onPool w fun _ _ there => absurd there same
    · exact .inr (.of_pools (w.attend_pools i))
  | tick | expect | setOutage | addScheduler | dropScheduler | dropCache =>
    exact .inr (.of_pools rfl)
  | arrive => exact .inr (.of_pools (w.attend_pools _))
  | note => exact .inr (.of_pools (w.note_pools _))
  | openPool => exact .inr (Reaches.append (.of_pools rfl) rfl rfl rfl)
  | keepHandle | staff => exact .inr (.onPool w fun pool _ _ => .refl pool.worker)
  | giveHandle q | unregister q => exact .inr (.given w q fun _ => rfl)
  | inquire q | occupy q => exact .inr (Reaches.submit (.of_pools rfl) q _)
  | start => exact .inr (Reaches.asked (.of_pools rfl) (start_requested w none _))
  | schedule => exact .inr (Reaches.asked (.of_pools rfl) (schedule_requested w none _ _))
  | shutdown s => exact .inr (h.shutdown_reaches s)
  | @openCache config issuer _ _ opens =>
    right
    obtain ⟨q, opened, had, -, rfl⟩ := openCache_ok opens
    have found : Reaches w opened p := by
      rcases poolFor_ok had with ⟨rfl | ⟨notice, -, rfl⟩, -⟩
      · exact .of_pools rfl
      · refine Reaches.note ?_ notice
        exact Reaches.append (.of_pools rfl) rfl rfl rfl
    have added : Reaches w (opened.withCache q config issuer) p := found
    exact added.asked (start_requested _ none _)

theorem Step.left_alone (h : w.Sound) (step : Step w w') {pool : Pool}
    (hp : w.pools[p]? = some pool) (closing : pool.worker.closing = true) :
    w' = w.work p ∨ w'.pools[p]?.map (·.worker) = some pool.worker := by
  refine (step.reaches h p).imp (fun ⟨_, _, work⟩ => work) fun reaches => ?_
  obtain ⟨pool', hp', -⟩ := step.poolsFollow h p pool hp
  rcases reaches pool' hp' with ⟨nothing, -⟩ | ⟨before, there, reached⟩
  · rw [nothing] at hp
    cases hp
  · obtain rfl := Option.some.inj (hp.symm.trans there)
    rw [hp', Option.map_some, reached.closed closing]

theorem Step.torn_down_there (h : w.Sound) (step : Step w w') (torn : w'.isTornDown p = true) :
    p < w.pools.length := by
  obtain ⟨pool', hp', closing⟩ := isTornDown_iff.mp torn
  rcases step.reaches h p with ⟨pool, hp, -⟩ | reaches
  · exact (List.getElem?_eq_some_iff.mp hp).1
  · rcases reaches pool' hp' with ⟨-, opened, -⟩ | ⟨pool, hp, -⟩
    · rw [opened] at closing
      cases closing
    · exact (List.getElem?_eq_some_iff.mp hp).1

section Accepting
variable {before after : List Scheduler} {s : SchedulerId}

def Accepts (before after : List Scheduler) : Prop :=
  ∀ (s : SchedulerId) scheduler', after[s]? = some scheduler' →
    (∃ p, scheduler'.pool = some p) ∨
      ∃ scheduler, before[s]? = some scheduler ∧ scheduler'.accepted = scheduler.accepted

theorem Accepts.refl (schedulers : List Scheduler) : Accepts schedulers schedulers :=
  fun _ scheduler hs => .inr ⟨scheduler, hs, rfl⟩

theorem Accepts.modify {f : Scheduler → Scheduler}
    (each : ∀ scheduler, before[s]? = some scheduler →
      (∃ p, (f scheduler).pool = some p) ∨ (f scheduler).accepted = scheduler.accepted) :
    Accepts before (before.modify s f) := by
  intro s' scheduler' hs'
  obtain ⟨scheduler, hs, rfl⟩ := getElem?_modify_cases hs'
  split
  · rename_i same
    exact (each scheduler (same ▸ hs)).imp_right fun accepted => ⟨scheduler, hs, accepted⟩
  · exact .inr ⟨scheduler, hs, rfl⟩

theorem Deed.accepts {task : Task} {added : Multiset Task} {caches : List Cache}
    (deed : Deed w task added after caches) : Accepts w.schedulers after := by
  have asks {s : SchedulerId} {scheduler : Scheduler} {f : Scheduler → Scheduler}
      (hs : w.schedulers[s]? = some scheduler) (on : scheduler.isShutDown = false)
      (keeps : ∀ scheduler : Scheduler, (f scheduler).pool = scheduler.pool) :
      Accepts w.schedulers (w.schedulers.modify s f) := by
    refine .modify fun other hs' => .inl ?_
    obtain rfl := Option.some.inj (hs.symm.trans hs')
    rw [keeps]
    exact Scheduler.not_isShutDown_iff.mp on
  cases deed with
  | enterScript | enterRefresh | enterDropped | abandon | leave | panic | shutdown
  | concludeLast => exact .modify fun _ _ => .inr rfl
  | wait | pause | resume | inVain | call | endCall | answer | leaveGuest =>
    exact .refl _
  | schedule hs on | start hs on => exact asks hs on fun _ => rfl
  | conclude hc hs on => exact asks hs on fun _ => rfl

theorem Requested.accepts {actor : Option PoolId} (asked : Requested w actor s w') :
    Accepts w.schedulers w'.schedulers := by
  cases asked with
  | unknown => exact .refl _
  | vain notice =>
    rw [note_schedulers]
    exact .refl _
  | @accepted scheduler q hs on _ _ _ _ keeps _ =>
    rw [note_schedulers]
    refine .modify fun other hs' => .inl ⟨q, (keeps other).2.trans ?_⟩
    exact Option.some.inj (hs.symm.trans hs') ▸ on

theorem shutdown_accepts (w : World) (s : SchedulerId) :
    Accepts w.schedulers (w.shutdown none s).1.schedulers := by
  rcases w.shutdown_cases none s with same | ⟨scheduler, q, hs, on, notice, -, shut⟩
  · rw [same]
    exact .refl _
  · rw [shut, release_schedulers, note_schedulers]
    exact .modify fun _ _ => .inr rfl

theorem Sound.work_accepts (h : w.Sound) {pool : Pool} (hp : w.pools[p]? = some pool) :
    Accepts w.schedulers (w.work p).schedulers := by
  rcases h.work_cases hp with ⟨_, -, -, _, -, deed⟩ | own
  · exact Deed.accepts deed
  · rw [own]
    exact .refl _

theorem openCache_accepts {config : Config} {issuer : Issuer} {c : CacheId}
    (opens : w.openCache config issuer = (.ok c, w')) : Accepts w.schedulers w'.schedulers := by
  obtain ⟨p, opened, had, -, rfl⟩ := openCache_ok opens
  have same : opened.schedulers = w.schedulers := by
    rcases poolFor_ok had with ⟨rfl | ⟨notice, -, rfl⟩, -⟩
    · rfl
    · exact note_schedulers ..
  have fresh : (opened.withCache p config issuer).schedulers[opened.schedulers.length]? =
      some { job := .refresh opened.caches.length, pool := some p } :=
    List.getElem?_concat_length
  obtain ⟨notice, -, started⟩ := start_open none fresh rfl rfl
  rw [started, note_schedulers]
  intro s scheduler' hs'
  obtain ⟨scheduler, hs, rfl⟩ := getElem?_modify_cases hs'
  rcases getElem?_concat_cases hs with old | ⟨rfl, rfl⟩
  · have bound := (List.getElem?_eq_some_iff.mp old).1
    rw [if_neg bound.ne']
    exact .inr ⟨scheduler, same ▸ old, rfl⟩
  · rw [if_pos rfl]
    exact .inl ⟨p, rfl⟩

theorem Step.accepts (h : w.Sound) (step : Step w w') : Accepts w.schedulers w'.schedulers := by
  cases step with
  | move moved =>
    obtain ⟨q, pool, hq, -, rfl⟩ | ⟨-, i, -, -, -, -, -, rfl⟩ := move?_cases moved
    · exact h.work_accepts hq
    · rw [w.attend_schedulers i]
      exact .refl _
  | tick | expect | setOutage | openPool | keepHandle | staff | inquire | occupy | dropCache =>
    exact .refl _
  | arrive =>
    rw [w.attend_schedulers _]
    exact .refl _
  | note =>
    rw [w.note_schedulers _]
    exact .refl _
  | giveHandle p | unregister p =>
    rw [release_schedulers]
    exact .refl _
  | addScheduler =>
    intro s scheduler' hs'
    rcases getElem?_concat_cases hs' with old | ⟨-, rfl⟩
    · exact .inr ⟨scheduler', old, rfl⟩
    · exact .inl ⟨_, rfl⟩
  | start => exact (start_requested w none _).accepts
  | schedule => exact (schedule_requested w none _ _).accepts
  | shutdown s => exact shutdown_accepts w s
  | dropScheduler => exact .modify fun _ _ => .inr rfl
  | openCache opens => exact openCache_accepts opens

end Accepting
end World
end TokenKeeper
