import TokenKeeper.Proofs.Chain.Sound
import TokenKeeper.Proofs.Docket.Calls
import TokenKeeper.Proofs.Docket.Turned
/-! A scheduler comes into being with nothing to do. From then on the world shows what its docket
has become, so an invariant of dockets holds of every scheduler there is. -/
namespace TokenKeeper

structure Docket.Fresh (x : Docket) : Prop where
  running : x.scheduler.isShutDown = false
  started : x.scheduler.started = false
  accepted : x.scheduler.accepted = 0
  abandoned : x.scheduler.abandoned = []
  runs : x.scheduler.runs = []
  hand : x.hand = .between
  others : x.others = 0
  closing : x.closing = false

namespace World
variable {w w' : World} {s : SchedulerId} {p : PoolId} {x : Docket} {held : Option Task → Prop}

namespace Lists

theorem pool_eq (lists : w.Lists s p x) {scheduler : Scheduler}
    (hs : w.schedulers[s]? = some scheduler) {q : PoolId} (on : scheduler.pool = some q) :
    q = p := by
  obtain rfl := Option.some.inj (lists.scheduler.symm.trans hs)
  obtain same | off := lists.on
  · exact Option.some.inj (on.symm.trans same)
  · cases off.symm.trans on

theorem shutdown (lists : w.Lists s p x) (s' : SchedulerId) :
    Listed held (w.shutdown none s').1 s p x := by
  rcases w.shutdown_cases none s' with same | ⟨_, q, -, -, notice, -, shut⟩
  · rw [same]
    exact ⟨x, lists, .refl⟩
  · rw [shut]
    have first : Listed held (w.onScheduler s' (·.letGo)) s p x := by
      by_cases mine : s' = s
      · subst mine
        refine ⟨{ x with scheduler := x.scheduler.letGo },
          ⟨?_, .inr rfl, lists.now, lists.pool, lists.home, lists.upcoming⟩, .single .shut⟩
        exact (List.getElem?_modify_eq ..).trans (by rw [lists.scheduler]; rfl)
      · exact lists.onScheduler mine _
    exact ((first.next fun x' lists' => lists'.rouse q (Task.isPendingOf s')).next
      fun x' lists' => lists'.note notice).next fun x' lists' => lists'.release q

theorem asked (lists : w.Lists s p x) {s' : SchedulerId} (asks : Asks w w' s') (other : s' ≠ s) :
    Listed held w' s p x := by
  obtain same | ⟨scheduler, q, task, f, -, -, -, mine, -, notice, -, rfl⟩ := asks
  · obtain rfl | ⟨notice, -, rfl⟩ := same
    · exact ⟨x, lists, .refl⟩
    · exact lists.note notice
  · have foreign : task.scheduler? ≠ some s := by
      rw [mine]
      exact fun same => other (Option.some.inj same)
    exact ((lists.submit q foreign).next fun x' lists' => lists'.onScheduler other f).next
      fun x' lists' => lists'.note notice

theorem given (lists : w.Lists s p x) {task : Task} (mine : task.scheduler? = some s)
    {f : Scheduler → Scheduler} (keeps : (f x.scheduler).pool = x.scheduler.pool) :
    ∃ others, Left x.closing others ({task} + x.others) ∧
      ((w.submit none p task).onScheduler s f).Lists s p
        { x with scheduler := f x.scheduler, others := others } := by
  obtain ⟨pool, hp, closing, hand, others⟩ := lists.pool
  have left := (pool.worker.submitAll_others [task]).filter (·.scheduler? = some s)
  obtain ⟨inbox, eq⟩ := pool.worker.submitAll_eq [task]
  rw [Multiset.coe_singleton, Multiset.filter_add, Multiset.filter_singleton, if_pos mine,
    ← others, ← closing] at left
  have pools := submit_pools w p task
  have there : (w.submit none p task).pools[p]? =
      some { pool with worker := pool.worker.submit task } := by
    rw [pools, List.getElem?_modify_eq, hp]
    rfl
  refine ⟨_, left, ⟨?_, by rw [keeps]; exact lists.on, lists.now,
    ⟨_, there, ?_, ?_, rfl⟩, fun q pool' hq next hn same => ?_, lists.upcoming⟩⟩
  · exact (List.getElem?_modify_eq ..).trans (congrArg (Option.map f) lists.scheduler)
  · rw [closing, Worker.submit, eq]
    rfl
  · rw [hand, Worker.submit, eq]
    rfl
  · by_contra other
    rw [show ((w.submit none p task).onScheduler s f).pools = _ from pools,
      List.getElem?_modify_ne _ _ (Ne.symm other)] at hq
    exact other (lists.home q pool' hq next hn same)

theorem start (lists : w.Lists s p x) (s' : SchedulerId) : Listed held (w.start none s') s p x := by
  by_cases other : s' ≠ s
  · exact lists.asked (start_asks w s') other
  · obtain rfl := not_not.mp other
    by_cases vain : x.scheduler.started = true ∨ x.scheduler.isShutDown = true
    · obtain ⟨notice, -, same⟩ := start_vain none lists.scheduler vain
      rw [same]
      exact lists.note notice
    · rw [not_or, Bool.not_eq_true, Bool.not_eq_true] at vain
      obtain ⟨q, on⟩ := Scheduler.not_isShutDown_iff.mp vain.2
      obtain rfl := lists.pool_eq lists.scheduler on
      obtain ⟨notice, -, same⟩ := start_open none lists.scheduler on vain.1
      obtain ⟨others, left, lists'⟩ := lists.given
        (show (Task.begin ⟨s', x.scheduler.accepted⟩).scheduler? = some s' from rfl)
        (f := fun scheduler => { scheduler.accept with started := true }) rfl
      rw [same]
      obtain ⟨x'', lists'', later⟩ : Listed held _ s' _ _ := lists'.note notice
      exact ⟨x'', lists'', later.head (.start vain.2 vain.1 left)⟩

theorem schedule (lists : w.Lists s p x) (s' : SchedulerId) (delay : Span) :
    Listed held (w.schedule none s' delay) s p x := by
  by_cases other : s' ≠ s
  · exact lists.asked (schedule_asks w s' delay) other
  · obtain rfl := not_not.mp other
    cases off : x.scheduler.isShutDown with
    | true =>
      rw [schedule_shut none lists.scheduler off]
      exact lists.note _
    | false =>
      obtain ⟨q, on⟩ := Scheduler.not_isShutDown_iff.mp off
      obtain rfl := lists.pool_eq lists.scheduler on
      obtain ⟨notice, -, same⟩ := schedule_open none lists.scheduler on delay
      obtain ⟨others, left, lists'⟩ := lists.given
        (show (Task.delayed ⟨s', x.scheduler.accepted⟩ delay).scheduler? = some s' from rfl)
        (f := Scheduler.accept) rfl
      rw [same]
      obtain ⟨x'', lists'', later⟩ : Listed held _ s' _ _ := lists'.note notice
      exact ⟨x'', lists'', later.head (.schedule off left)⟩

theorem tick (lists : w.Lists s p x) (h : w.Sound) {t : Instant} (quiet : w.move? = none)
    (later : w.now ≤ t) (next : ∀ time, w.nextTime? = some time → t ≤ time) :
    Listed (w.HeldBy s p) { w with now := t } s p x := by
  obtain ⟨pool, hp, closing, hand, others⟩ := lists.pool
  have still := (move?_none quiet).1 pool (List.mem_of_getElem? hp)
  have shown : ({ w with now := t } : World).Lists s p { x with now := t } :=
    ⟨lists.scheduler, lists.on, rfl, ⟨pool, hp, closing, hand, others⟩, lists.home,
      lists.upcoming⟩
  refine ⟨_, shown, .single (.tick (lists.now ▸ later) (fun task busy => ?_)
    (fun task free holds => ?_) ?_)⟩
  · rw [hand, Worker.Stage.of_busy] at busy
    rw [Worker.isReady, busy.1] at still
    cases still
  · rw [hand, Worker.Stage.of_held] at holds
    rw [Worker.isReady, holds.1] at still
    rw [lists.now]
    refine ⟨(by simpa using still : w.now < free).le, ?_⟩
    obtain ⟨time, first, le⟩ := nextTime?_le_worker (List.mem_of_getElem? hp)
      (show pool.worker.wakes = some free by rw [Worker.wakes, holds.1])
    exact (next time first).trans le
  · by_contra neither
    rw [not_or, not_or] at neither
    obtain ⟨unheld, free, due⟩ := neither
    refine due fun task ht => ?_
    rw [others, Multiset.mem_filter] at ht
    have there : task ∈ pool.worker.tasks := Multiset.mem_add.mpr (.inr ht.1)
    obtain ⟨holder, till, stage, -⟩ | ⟨due, hd, ahead, time, first, le⟩ :=
      due_of_still h (move?_none quiet).1 hp there
    · by_cases mine : holder.scheduler? = some s
      · have own := hand.trans (Worker.Stage.of_held.mpr ⟨stage, mine⟩)
        exact (free ⟨holder, till, own, pool, holder, till, hp, stage, (if_pos mine).symm⟩).elim
      · exact (unheld ⟨pool, holder, till, hp, stage, (if_neg mine).symm⟩).elim
    · exact ⟨due, hd, lists.now ▸ ahead, (next time first).trans le⟩

theorem openPool (lists : w.Lists s p x) (identity : Identity) : Listed held
    { w with pools := w.pools ++ [{ identity := identity, worker := .fresh w.now }] } s p x := by
  refine lists.spared rfl rfl lists.upcoming (fun pool hp => ?_) fun q pool' hq => ?_
  · refine ⟨pool, ?_, .inl rfl⟩
    rw [List.getElem?_append_left (List.getElem?_eq_some_iff.mp hp).1, hp]
  · obtain old | ⟨rfl, rfl⟩ := getElem?_concat_cases hq
    · exact .inl ⟨pool', old, .of_worker rfl⟩
    · exact .inr ⟨List.getElem?_eq_none le_rfl, Worker.fresh_tasks _⟩

theorem append (lists : w.Lists s p x) (scheduler : Scheduler) (caches : List Cache)
    (others : ∀ cache ∈ caches, cache.scheduler ≠ s) : Listed held
      { w with schedulers := w.schedulers ++ [scheduler], caches := w.caches ++ caches } s p x := by
  have bound := (List.getElem?_eq_some_iff.mp lists.scheduler).1
  refine lists.same rfl (List.getElem?_append_left bound) ?_ rfl
  refine lists.upcoming.keep fun c cache hc mine => ?_
  rw [List.getElem?_append] at hc
  split at hc
  · exact ⟨cache, hc, mine, rfl, rfl⟩
  · exact absurd mine (others cache (List.mem_of_getElem? hc))

theorem openCache (lists : w.Lists s p x) {config : Config} {issuer : Issuer} {c : CacheId}
    (opens : w.openCache config issuer = (.ok c, w')) : Listed held w' s p x := by
  obtain ⟨p', opened, had, -, rfl⟩ := openCache_ok opens
  obtain ⟨same, -⟩ := poolFor_ok had
  have first : Listed held opened s p x := by
    obtain rfl | ⟨notice, -, rfl⟩ := same
    · exact ⟨x, lists, .refl⟩
    · exact (lists.openPool config.pool).next fun x' lists' => lists'.note notice
  have bound {x' : Docket} (lists' : opened.Lists s p x') : s < opened.schedulers.length :=
    (List.getElem?_eq_some_iff.mp lists'.scheduler).1
  have second : Listed held (opened.withCache p' config issuer) s p x :=
    first.next fun x' lists' => lists'.append _ _ fun cache hc => by
      rw [List.mem_singleton.mp hc]
      exact (bound lists').ne'
  obtain ⟨x', lists', -⟩ := first
  exact second.next fun x'' lists'' => lists''.asked (start_asks _ _) (bound lists').ne'

/-- Every step of a world is a run of the docket of each of its schedulers. -/
theorem step (lists : w.Lists s p x) (h : w.Sound)
    (alone : ∀ run c, Task.fetch run c ∈ x.hand.tasks → x.others = 0) (step : Step w w') :
    Listed (w.HeldBy s p) w' s p x := by
  cases step with
  | move moved =>
    obtain ⟨q, pool, hq, ready, rfl⟩ | ⟨-, i, -, -, -, -, -, rfl⟩ := move?_cases moved
    · exact lists.work h alone hq ready
    · exact lists.attend i
  | tick quiet later next => exact lists.tick h quiet later next
  | arrive => exact lists.attend _
  | expect | setOutage => exact lists.same rfl rfl lists.upcoming rfl
  | note => exact lists.note _
  | openPool identity => exact lists.openPool identity
  | keepHandle | staff => exact lists.kept _ fun _ => rfl
  | giveHandle q | unregister q =>
    refine Listed.next ?_ fun x' lists' => lists'.release q
    exact lists.kept q fun _ => rfl
  | inquire q | occupy q => exact lists.submit q (by simp [Task.scheduler?])
  | @addScheduler q _ hp kept program =>
    have added : Listed (w.HeldBy s p) _ s p x :=
      lists.append { job := .script program, pool := some q } [] fun _ none => by cases none
    rwa [List.append_nil] at added
  | start => exact lists.start _
  | schedule => exact lists.schedule _ _
  | shutdown s' => exact lists.shutdown s'
  | @dropScheduler s' =>
    by_cases mine : s' = s
    · subst mine
      refine ⟨{ x with scheduler := { x.scheduler with dropped := true } },
        ⟨?_, lists.on, lists.now, lists.pool, lists.home, lists.upcoming⟩, .single .drop⟩
      exact (List.getElem?_modify_eq ..).trans (by rw [lists.scheduler]; rfl)
    · exact lists.onScheduler mine _
  | openCache opens => exact lists.openCache opens
  | dropCache =>
    exact lists.same rfl rfl (lists.upcoming.modify _ fun _ => ⟨⟨rfl, rfl, rfl⟩, rfl⟩) rfl

end Lists

theorem Sound.lists_new (h : w.Sound) {pool : Pool} (hp : w.pools[p]? = some pool)
    (kept : pool.isKept = true) (job : Job) (caches : List Cache) (call : Call)
    (upcoming : ∀ cache ∈ caches, cache.scheduler = w.schedulers.length →
      call = cache.issuer cache.attempts.length) :
    ∃ x, Docket.Fresh x ∧ ({ w with
      schedulers := w.schedulers ++ [{ job := job, pool := some p }]
      caches := w.caches ++ caches } : World).Lists w.schedulers.length p x := by
  have foreign : ∀ (q : PoolId) pool, w.pools[q]? = some pool → ∀ task ∈ pool.worker.tasks,
      task.scheduler? ≠ some w.schedulers.length := by
    intro q pool hq task ht mine
    obtain ⟨scheduler, hs⟩ := (h.tasks q pool hq task ht).1.scheduler mine
    simp at hs
  have away : pool.worker.stage.of w.schedulers.length = .between := by
    cases stage : pool.worker.stage with
    | busy task | held task =>
      exact if_neg (foreign p pool hp task (by simp [Worker.tasks, Worker.Stage.tasks, stage]))
    | _ => rfl
  have nothing : pool.worker.others.filter (·.scheduler? = some w.schedulers.length) = 0 :=
    Multiset.filter_eq_nil.mpr fun task ht =>
      foreign p pool hp task (Multiset.mem_add.mpr (.inr ht))
  refine ⟨⟨w.now, { job := job, pool := some p }, .between, 0, false, call⟩,
    ⟨rfl, rfl, rfl, rfl, rfl, rfl, rfl, rfl⟩, List.getElem?_concat_length, .inl rfl, rfl,
    ⟨pool, hp, (h.open_of_kept hp kept).symm, away.symm, nothing.symm⟩,
    fun q pool hq task ht mine => absurd mine (foreign q pool hq task ht),
    fun c cache hc mine => ?_⟩
  rw [List.getElem?_append] at hc
  split at hc
  · obtain ⟨scheduler, hs, -⟩ := h.caches c cache hc
    rw [mine] at hs
    simp at hs
  · exact upcoming cache (List.mem_of_getElem? hc) mine

theorem Asks.schedulers (asks : Asks w w' s) :
    Pointwise Scheduler.Follows w.schedulers w'.schedulers := by
  obtain same | ⟨_, q, task, f, -, -, -, -, follows, notice, -, rfl⟩ := asks
  · obtain rfl | ⟨notice, -, rfl⟩ := same
    · exact .refl .refl _
    · rw [note_schedulers]
      exact .refl .refl _
  · rw [note_schedulers]
    exact .modify .refl fun scheduler _ => follows scheduler

theorem shutdown_follows (w : World) (s : SchedulerId) :
    Pointwise Scheduler.Follows w.schedulers (w.shutdown none s).1.schedulers := by
  rcases w.shutdown_cases none s with same | ⟨_, q, -, -, notice, -, shut⟩
  · rw [same]
    exact .refl .refl _
  · rw [shut, release_schedulers, note_schedulers]
    exact .modify .refl fun _ _ => ⟨rfl, .inr rfl⟩

theorem Step.hires (h : w.Sound) (step : Step w w') {scheduler : Scheduler}
    (hs : w'.schedulers[s]? = some scheduler) (new : w.schedulers[s]? = none) :
    ∃ p first, scheduler.pool = some p ∧ Docket.Fresh first ∧
      Listed Docket.Anyone w' s p first := by
  have old {w' : World} (hs : w'.schedulers[s]? = some scheduler)
      (follows : Pointwise Scheduler.Follows w.schedulers w'.schedulers) : False := by
    obtain ⟨before, hb, -⟩ := follows.of_get hs
    cases new.symm.trans hb
  have still {w' : World} (hs : w'.schedulers[s]? = some scheduler)
      (same : w'.schedulers = w.schedulers) : False := old hs (same ▸ .refl .refl _)
  cases step with
  | move moved =>
    obtain ⟨p, pool, hp, -, rfl⟩ | ⟨-, i, -, -, -, -, -, rfl⟩ := move?_cases moved
    · rcases h.work_cases hp with ⟨task, -, -, added, -, deed⟩ | own
      · exact (old hs deed.follows.1).elim
      · rw [own] at hs
        exact (still hs rfl).elim
    · exact (still hs (w.attend_schedulers i)).elim
  | arrive => exact (still hs (w.attend_schedulers _)).elim
  | note => exact (still hs (w.note_schedulers _)).elim
  | giveHandle | unregister => exact (still hs (release_schedulers _ _)).elim
  | start => exact (old hs ((start_asks w _).schedulers)).elim
  | schedule => exact (old hs ((schedule_asks w _ _).schedulers)).elim
  | shutdown s' => exact (old hs (shutdown_follows w s')).elim
  | dropScheduler => exact (old hs (.modify .refl fun _ _ => ⟨rfl, .inl rfl⟩)).elim
  | @addScheduler q pool hp kept program =>
    obtain old' | ⟨rfl, rfl⟩ := getElem?_concat_cases hs
    · cases new.symm.trans old'
    · obtain ⟨x, fresh, lists⟩ := h.lists_new hp kept (.script program) [] ⟨[], .panic⟩ nofun
      rw [List.append_nil] at lists
      exact ⟨q, x, rfl, fresh, x, lists, .refl⟩
  | @openCache config issuer c _ opens =>
    obtain ⟨p, opened, had, rfl, rfl⟩ := openCache_ok opens
    obtain ⟨-, pool, hp, kept⟩ := poolFor_ok had
    rw [start_schedulers] at hs
    obtain ⟨before, hb, rfl⟩ := getElem?_modify_cases hs
    obtain old' | ⟨rfl, rfl⟩ := getElem?_concat_cases hb
    · rw [(poolFor_rest had).2.1] at old'
      cases new.symm.trans old'
    · let cache : Cache :=
        { config := config, issuer := issuer, scheduler := opened.schedulers.length }
      obtain ⟨x, fresh, lists⟩ := (h.poolFor had).lists_new hp kept (.refresh opened.caches.length)
        [cache] (issuer 0) fun cache hc _ => by rw [List.mem_singleton.mp hc]; rfl
      exact ⟨p, x, (if_pos rfl ▸ Scheduler.startOnce_pool _), fresh, Lists.start lists _⟩
  | _ => exact (still hs rfl).elim

theorem Lists.live (lists : w.Lists s p x) : w.live s = x.tasks := by
  obtain ⟨pool, hp, -, hand, others⟩ := lists.pool
  let without : World := w.onPool p fun pool => { pool with worker := .fresh w.now }
  obtain ⟨beyond, all, rest⟩ := tasks_modify hp (show without.pools = _ from rfl)
  have foreign : beyond.filter (·.scheduler? = some s) = 0 := by
    refine Multiset.filter_eq_nil.mpr fun task ht mine => ?_
    have there : task ∈ without.tasks := by
      rw [rest]
      exact Multiset.mem_add.mpr (.inr ht)
    obtain ⟨q, pool', hq, member⟩ := mem_tasks.mp there
    obtain ⟨before, hb, rfl⟩ := getElem?_modify_cases hq
    split at member
    · rw [Worker.fresh_tasks] at member
      exact absurd member (Multiset.notMem_zero task)
    · rename_i elsewhere
      exact elsewhere (lists.home q before hb task member mine).symm
  rw [World.live, all, Multiset.filter_add, foreign, add_zero, Docket.tasks, hand, others,
    Worker.Stage.of_tasks, ← Multiset.filter_add]
  rfl

theorem Lists.alone (lists : w.Lists s p x) (h : Reachable w) {run : RunId} {c : CacheId}
    (ht : .fetch run c ∈ x.hand.tasks) : x.others = 0 := by
  obtain ⟨pool, hp, -, hand, -⟩ := lists.pool
  have mine : run.scheduler = s := Option.some.inj (lists.of_hand ht)
  have there := (h.sound.tasks p pool hp (.fetch run c) <| Multiset.mem_add.mpr <| .inl <| by
    rw [hand, Worker.Stage.of_tasks] at ht
    exact Multiset.mem_of_mem_filter ht).1
  obtain ⟨-, cache, -, -, hc, same⟩ := there
  obtain ⟨chain, shows, rfl⟩ := h.sound.shows hc
  obtain ⟨start, sound⟩ := shows.sound h
  have card := sound.sole
  rw [shows.live, same, mine, lists.live, Docket.tasks, Multiset.card_add] at card
  have one : 0 < x.hand.tasks.card := Multiset.card_pos_iff_exists_mem.mpr ⟨_, ht⟩
  exact Multiset.card_eq_zero.mp (by omega)

theorem Lists.next (lists : w.Lists s p x) (h : Reachable w) (step : Step w w') :
    Listed (w.HeldBy s p) w' s p x :=
  lists.step h.sound (fun _ _ => lists.alone h) step

theorem Lists.later (lists : w.Lists s p x) (h : Reachable w) (later : Later w w') :
    Listed Docket.Anyone w' s p x := by
  induction later with
  | refl => exact ⟨x, lists, .refl⟩
  | tail before step ih =>
    obtain ⟨x', lists', later'⟩ := ih
    obtain ⟨x'', lists'', later''⟩ := lists'.next (h.later before) step
    exact ⟨x'', lists'', later'.trans (Docket.Later.mono later'' fun _ _ => trivial)⟩

def Employs (w : World) (s : SchedulerId) (p : PoolId) : Prop :=
  ∃ earlier scheduler, Reachable earlier ∧ Later earlier w ∧
    earlier.schedulers[s]? = some scheduler ∧ scheduler.pool = some p

/-- What the world shows of a scheduler comes from the time when it was added. -/
theorem Reachable.docket (h : Reachable w) {scheduler : Scheduler}
    (hs : w.schedulers[s]? = some scheduler) : ∃ p first x, w.Employs s p ∧
      Docket.Fresh first ∧ Docket.Later Docket.Anyone first x ∧ w.Lists s p x := by
  obtain ⟨now, verbosity, run⟩ := h
  induction run generalizing scheduler with
  | refl => simp at hs
  | @tail middle last before step ih =>
    have reached : Reachable middle := ⟨now, verbosity, before⟩
    cases there : middle.schedulers[s]? with
    | none =>
      obtain ⟨p, first, on, fresh, x, lists, later⟩ := step.hires reached.sound hs there
      have here : last.Employs s p :=
        ⟨last, scheduler, ⟨now, verbosity, before.tail step⟩, .refl, hs, on⟩
      exact ⟨p, first, x, here, fresh, later, lists⟩
    | some scheduler' =>
      obtain ⟨p, first, x, ⟨earlier, _, origin, later, there⟩, fresh, run, lists⟩ := ih there
      obtain ⟨x', lists', run'⟩ := lists.later reached (.single step)
      exact ⟨p, first, x', ⟨earlier, _, origin, later.tail step, there⟩, fresh, run.trans run',
        lists'⟩

theorem Employs.docket (employs : w.Employs s p) : ∃ first x, Docket.Fresh first ∧
    Docket.Later Docket.Anyone first x ∧ w.Lists s p x := by
  obtain ⟨earlier, scheduler, h, later, hs, on⟩ := employs
  obtain ⟨q, first, x, -, fresh, run, lists⟩ := h.docket hs
  obtain rfl := lists.pool_eq hs on
  obtain ⟨x', lists', run'⟩ := lists.later h later
  exact ⟨first, x', fresh, run.trans run', lists'⟩

end World
end TokenKeeper
