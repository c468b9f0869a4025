import TokenKeeper.Proofs.Chain.Birth
/-! What the calls of a scheduler do to it, whoever calls: others, or the job in one of its runs.
And no scheduler lets go of its pool but when it is called to. -/
namespace TokenKeeper

theorem modify_congr {l : List α} {i : Nat} {f g : α → α}
    (same : ∀ x, l[i]? = some x → f x = g x) : l.modify i f = l.modify i g := by
  refine List.ext_getElem? fun j => ?_
  rw [List.getElem?_modify, List.getElem?_modify]
  split
  · rename_i here
    cases hj : l[j]? with
    | none => rfl
    | some x => exact congrArg some (same x (here ▸ hj))
  · rfl

theorem modify_eq_of_same {l : List α} {i : Nat} {f : α → α}
    (same : ∀ x, l[i]? = some x → f x = x) : l.modify i f = l :=
  (modify_congr same).trans (List.modify_id i l)

namespace Scheduler

def startOnce (scheduler : Scheduler) : Scheduler :=
  if scheduler.started || scheduler.isShutDown then scheduler
  else { scheduler.accept with started := true }

def acceptOpen (scheduler : Scheduler) : Scheduler :=
  if scheduler.isShutDown then scheduler else scheduler.accept

theorem startOnce_pool (scheduler : Scheduler) : scheduler.startOnce.pool = scheduler.pool := by
  unfold startOnce
  split <;> rfl

theorem acceptOpen_pool (scheduler : Scheduler) : scheduler.acceptOpen.pool = scheduler.pool := by
  unfold acceptOpen
  split <;> rfl

end Scheduler

namespace World
variable {w w' : World} {s : SchedulerId} {scheduler : Scheduler}

theorem start_schedulers (w : World) (actor : Option PoolId) (s : SchedulerId) :
    (w.start actor s).schedulers = w.schedulers.modify s Scheduler.startOnce := by
  cases hs : w.schedulers[s]? with
  | none =>
    rw [modify_eq_of_same fun _ hs' => by cases hs.symm.trans hs']
    simp only [start, hs]
  | some scheduler =>
    by_cases vain : scheduler.started = true ∨ scheduler.isShutDown = true
    · obtain ⟨notice, -, same⟩ := start_vain actor hs vain
      rw [same, note_schedulers, modify_eq_of_same fun _ hs' => ?_]
      cases hs.symm.trans hs'
      exact if_pos (by simpa using vain)
    · rw [not_or, Bool.not_eq_true, Bool.not_eq_true] at vain
      obtain ⟨q, on⟩ := Scheduler.not_isShutDown_iff.mp vain.2
      obtain ⟨notice, -, same⟩ := start_open actor hs on vain.1
      rw [same, note_schedulers]
      refine modify_congr fun _ hs' => ?_
      cases hs.symm.trans hs'
      exact (if_neg (by simp [vain])).symm

theorem schedule_schedulers (w : World) (actor : Option PoolId) (s : SchedulerId) (delay : Span) :
    (w.schedule actor s delay).schedulers = w.schedulers.modify s Scheduler.acceptOpen := by
  cases hs : w.schedulers[s]? with
  | none =>
    rw [modify_eq_of_same fun _ hs' => by cases hs.symm.trans hs']
    simp only [schedule, hs]
  | some scheduler =>
    cases off : scheduler.isShutDown with
    | true =>
      rw [schedule_shut actor hs off, note_schedulers, modify_eq_of_same fun _ hs' => ?_]
      cases hs.symm.trans hs'
      exact if_pos off
    | false =>
      obtain ⟨q, on⟩ := Scheduler.not_isShutDown_iff.mp off
      obtain ⟨notice, -, same⟩ := schedule_open actor hs on delay
      rw [same, note_schedulers]
      refine modify_congr fun _ hs' => ?_
      cases hs.symm.trans hs'
      exact (if_neg (by simp [off])).symm

theorem shutdown_schedulers (actor : Option PoolId) (hs : w.schedulers[s]? = some scheduler) :
    (w.shutdown actor s).2 = !scheduler.isShutDown ∧
      (w.shutdown actor s).1.schedulers = w.schedulers.modify s Scheduler.letGo := by
  cases on : scheduler.pool with
  | none =>
    have off := Scheduler.isShutDown_iff.mpr on
    rw [shutdown_shut actor hs off, off, modify_eq_of_same fun _ hs' => ?_]
    · exact ⟨rfl, rfl⟩
    · cases hs.symm.trans hs'
      rw [Scheduler.letGo, ← on]
  | some q =>
    obtain ⟨notice, -, shut⟩ := shutdown_open actor hs on
    rw [shut, release_schedulers, note_schedulers, Scheduler.isShutDown, on]
    exact ⟨rfl, rfl⟩

end World

theorem modify_pool {schedulers : List Scheduler} {s s' : SchedulerId} {f : Scheduler → Scheduler}
    {scheduler scheduler' : Scheduler} (hs : schedulers[s]? = some scheduler)
    (hs' : (schedulers.modify s' f)[s]? = some scheduler')
    (same : s' ≠ s ∨ ∀ scheduler, (f scheduler).pool = scheduler.pool) :
    scheduler'.pool = scheduler.pool := by
  rw [List.getElem?_modify, hs] at hs'
  split at hs'
  · rename_i here
    cases hs'
    exact same.resolve_left (not_not.mpr here) scheduler
  · cases hs'
    rfl

theorem Deed.lets_go {w : World} {s : SchedulerId} {scheduler scheduler' : Scheduler} {task : Task}
    {added : Multiset Task} {schedulers : List Scheduler} {caches : List Cache}
    (deed : Deed w task added schedulers caches) (hs : w.schedulers[s]? = some scheduler)
    (hs' : schedulers[s]? = some scheduler') (other : scheduler'.pool ≠ scheduler.pool) :
    ∃ run rest, task = .script run (.shutdown :: rest) ∧ run.scheduler = s := by
  cases deed with
  | @shutdown run rest =>
    by_cases mine : run.scheduler = s
    · exact ⟨run, rest, rfl, mine⟩
    · exact absurd (modify_pool hs hs' (.inl mine)) other
  | enterScript | enterRefresh | enterDropped | abandon | leave | panic | schedule | start
  | conclude | concludeLast => exact absurd (modify_pool hs hs' (.inr fun _ => rfl)) other
  | wait | pause | resume | inVain | call | endCall | answer | leaveGuest =>
    cases hs.symm.trans hs'
    exact absurd rfl other

namespace World
variable {w w' : World} {s : SchedulerId} {scheduler : Scheduler}

def CallsShutdown (w w' : World) (s : SchedulerId) : Prop :=
  w' = (w.shutdown none s).1 ∨ ∃ (p : PoolId) (pool : Pool) (run : RunId) (rest : List Action),
    w.pools[p]? = some pool ∧ pool.worker.stage = .busy (.script run (.shutdown :: rest)) ∧
      run.scheduler = s ∧ w' = w.work p

theorem Step.calls_shutdown (h : w.Sound) (step : Step w w')
    (hs : w.schedulers[s]? = some scheduler) {scheduler' : Scheduler}
    (hs' : w'.schedulers[s]? = some scheduler') (other : scheduler'.pool ≠ scheduler.pool) :
    CallsShutdown w w' s := by
  have bound := (List.getElem?_eq_some_iff.mp hs).1
  have still {w' : World} (hs' : w'.schedulers[s]? = some scheduler')
      (same : w'.schedulers[s]? = w.schedulers[s]?) : False := by
    rw [same, hs] at hs'
    cases hs'
    exact other rfl
  have keeps {w' : World} (hs' : w'.schedulers[s]? = some scheduler') {s' : SchedulerId}
      {f : Scheduler → Scheduler} (schedulers : w'.schedulers = w.schedulers.modify s' f)
      (same : s' ≠ s ∨ ∀ scheduler, (f scheduler).pool = scheduler.pool) : False :=
    other (modify_pool hs (schedulers ▸ hs') same)
  cases step with
  | move moved =>
    obtain ⟨q, pool, hq, -, rfl⟩ | ⟨-, i, -, -, -, -, -, rfl⟩ := move?_cases moved
    · rcases h.work_cases hq with ⟨task, stage, -, added, -, deed⟩ | own
      · obtain ⟨run, rest, rfl, mine⟩ := deed.lets_go hs hs' other
        exact .inr ⟨q, pool, run, rest, hq, stage, mine, rfl⟩
      · rw [own] at hs'
        exact (still hs' rfl).elim
    · exact (still hs' (by rw [attend_schedulers])).elim
  | arrive => exact (still hs' (by rw [attend_schedulers])).elim
  | note => exact (still hs' (by rw [note_schedulers])).elim
  | giveHandle | unregister => exact (still hs' (by rw [release_schedulers]; rfl)).elim
  | start => exact (keeps hs' (start_schedulers ..) (.inr Scheduler.startOnce_pool)).elim
  | schedule => exact (keeps hs' (schedule_schedulers ..) (.inr Scheduler.acceptOpen_pool)).elim
  | shutdown s' =>
    by_cases mine : s' = s
    · exact .inl (mine ▸ rfl)
    · cases there : w.schedulers[s']? with
      | none =>
        unfold World.shutdown at hs'
        rw [there] at hs'
        exact (still hs' rfl).elim
      | some => exact (keeps hs' (shutdown_schedulers none there).2 (.inl mine)).elim
  | dropScheduler => exact (keeps hs' rfl (.inr fun _ => rfl)).elim
  | addScheduler => exact (still hs' (List.getElem?_append_left bound)).elim
  | @openCache config issuer _ _ opens =>
    obtain ⟨q, opened, had, -, rfl⟩ := openCache_ok opens
    obtain ⟨-, same, -⟩ := poolFor_rest had
    rw [start_schedulers, List.getElem?_modify_ne _ _ (by rw [same]; exact bound.ne')] at hs'
    have old : (opened.withCache q config issuer).schedulers[s]? = w.schedulers[s]? :=
      (List.getElem?_append_left (by rwa [same])).trans (by rw [same])
    exact (still hs' old).elim
  | _ => exact (still hs' rfl).elim

end World
end TokenKeeper
