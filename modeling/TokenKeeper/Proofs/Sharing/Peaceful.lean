import TokenKeeper.Proofs.Operations
import TokenKeeper.Proofs.Sharing.Matches
import TokenKeeper.Proofs.World.Hand
/-! Worlds with nothing but caches whose issuers never hold a worker, and whose pools the registry
holds. Nothing is lost in them and nothing is late, so the world shows of each cache a chain that
only moves. -/
namespace TokenKeeper

/-- A step of a run of a cache that does not hold the worker. -/
def Task.IsGentle : Task → Prop
  | call _ _ pauses _ => ∀ length, .hold length ∈ pauses → length = 0
  | script .. | inquiry | guest _ => False
  | _ => True

theorem Pointwise.length_eq {R : α → α → Prop} {before after : List α}
    (h : Pointwise R before after) : after.length = before.length := by
  apply le_antisymm
  · by_contra more
    obtain ⟨_, hi, -⟩ := h.of_get (List.getElem?_eq_getElem (Nat.not_le.mp more))
    simp at hi
  · by_contra more
    obtain ⟨_, hi, -⟩ := h.grows _ _ (List.getElem?_eq_getElem (Nat.not_le.mp more))
    simp at hi

namespace World
variable {w w' : World} {c : CacheId} {x : Chain}

structure SameSize (w w' : World) : Prop where
  pools : w'.pools.length = w.pools.length
  schedulers : w'.schedulers.length = w.schedulers.length
  caches : w'.caches.length = w.caches.length

theorem SameSize.refl (w : World) : SameSize w w := ⟨rfl, rfl, rfl⟩

theorem SameSize.trans {first second third : World} (h : SameSize first second)
    (h' : SameSize second third) : SameSize first third :=
  ⟨h'.pools.trans h.pools, h'.schedulers.trans h.schedulers, h'.caches.trans h.caches⟩

structure Peaceful (w : World) : Prop where
  reachable : Reachable w
  pools : ∀ pool ∈ w.pools, pool.registered = true ∧
    (∀ task free, pool.worker.stage ≠ .held task free) ∧
      ∀ task ∈ pool.worker.tasks, task.IsGentle
  jobs : ∀ scheduler ∈ w.schedulers, ∃ c, scheduler.job = .refresh c
  issuers : ∀ cache ∈ w.caches, ∀ k, (cache.issuer k).IsGentle

theorem Peaceful.new (now : Instant) (verbosity : Verbosity) :
    Peaceful { now := now, verbosity := verbosity } := by
  refine ⟨⟨now, verbosity, .refl⟩, ?_, ?_, ?_⟩ <;> simp

theorem Peaceful.deed (h : w.Peaceful) {task : Task} {added : Multiset Task}
    {schedulers : List Scheduler} {caches : List Cache}
    (deed : Deed w task added schedulers caches) (gentle : task.IsGentle) :
    ∀ next ∈ added, next.IsGentle := by
  have single {next : Task} (h : next.IsGentle) :
      ∀ other ∈ ({next} : Multiset Task), other.IsGentle := by
    intro other member
    rwa [Multiset.mem_singleton.mp member]
  have left {pause pause' : Pause} {rest : List Pause}
      (h : ∀ length, .hold length ∈ pause :: rest → length = 0)
      (till : ∀ length, pause' ≠ .hold length) :
      ∀ length, .hold length ∈ pause' :: rest → length = 0 := by
    intro length member
    obtain same | old := List.mem_cons.mp member
    · exact absurd same.symm (till length)
    · exact h length (List.mem_cons_of_mem _ old)
  cases deed with
  | enterScript _ hs job =>
    obtain ⟨c, other⟩ := h.jobs _ (List.mem_of_getElem? hs)
    rw [job] at other
    cases other
  | enterDropped | abandon | concludeLast => nofun
  | enterRefresh | wait | endCall | conclude => exact single trivial
  | pause pauses =>
    unfold Task.pausing? at pauses
    split at pauses <;> cases pauses
    · exact gentle.elim
    · exact single (left gentle nofun)
    · exact gentle.elim
  | resume pauses =>
    unfold Task.pausing? at pauses
    split at pauses <;> cases pauses
    · exact gentle.elim
    · exact single fun length member => gentle length (List.mem_cons_of_mem _ member)
    · exact gentle.elim
  | leave | panic | schedule | start | shutdown | inVain | answer | leaveGuest =>
    exact gentle.elim
  | call hc => exact single fun length => h.issuers _ (List.mem_of_getElem? hc) _ length

theorem carryOn_unheld {p : PoolId} {pool pool' : Pool} {task : Task}
    (hp : w.pools[p]? = some pool) (gentle : task.IsGentle)
    (hp' : (w.carryOn p task).pools[p]? = some pool') (next : Task) (free : Instant) :
    pool'.worker.stage ≠ .held next free := by
  intro stage
  obtain ⟨length, still, pauses, -⟩ := (carryOn_leaves hp hp').free next free stage
  have none : length = 0 := by
    unfold Task.pausing? at pauses
    split at pauses <;> cases pauses
    · exact gentle.elim
    · exact gentle length List.mem_cons_self
    · exact gentle.elim
  rw [carryOn_pausing pauses, none] at hp'
  rw [setStage_stage hp'] at stage
  cases stage

namespace Peaceful

theorem of_pools (h : w.Peaceful) (reachable : Reachable w')
    (schedulers : Pointwise Scheduler.Follows w.schedulers w'.schedulers)
    (caches : Pointwise Cache.Follows w.caches w'.caches)
    (pools : ∀ pool ∈ w'.pools, pool.registered = true ∧
      (∀ task free, pool.worker.stage ≠ .held task free) ∧
        ∀ task ∈ pool.worker.tasks, task.IsGentle) : w'.Peaceful := by
  refine ⟨reachable, pools, ?_, ?_⟩
  · intro scheduler member
    obtain ⟨s, hs⟩ := List.mem_iff_getElem?.mp member
    obtain ⟨before, hs, follows⟩ := schedulers.of_get hs
    rw [follows.job]
    exact h.jobs before (List.mem_of_getElem? hs)
  · intro cache member
    obtain ⟨c, hc⟩ := List.mem_iff_getElem?.mp member
    obtain ⟨before, hc, follows⟩ := caches.of_get hc
    rw [follows.issuer]
    exact h.issuers before (List.mem_of_getElem? hc)

theorem modify (h : w.Peaceful) (reachable : Reachable w')
    (schedulers : Pointwise Scheduler.Follows w.schedulers w'.schedulers)
    (caches : Pointwise Cache.Follows w.caches w'.caches) {p : PoolId} {f : Pool → Pool}
    (pools : w'.pools = w.pools.modify p f)
    (each : ∀ pool, w.pools[p]? = some pool → (f pool).registered = true ∧
      (∀ task free, (f pool).worker.stage ≠ .held task free) ∧
        ∀ task ∈ (f pool).worker.tasks, task.IsGentle) : w'.Peaceful := by
  apply h.of_pools reachable schedulers caches
  intro pool' member
  obtain ⟨q, hq⟩ := List.mem_iff_getElem?.mp member
  rw [pools] at hq
  obtain ⟨pool, hp, rfl⟩ := getElem?_modify_cases hq
  split
  · rename_i same
    exact each pool (same ▸ hp)
  · exact h.pools pool (List.mem_of_getElem? hp)

theorem keep (h : w.Peaceful) (step : Step w w') (pools : w'.pools = w.pools)
    (schedulers : Pointwise Scheduler.Follows w.schedulers w'.schedulers)
    (caches : Pointwise Cache.Follows w.caches w'.caches) : w'.Peaceful := by
  apply h.of_pools (h.reachable.later (.single step)) schedulers caches
  rw [pools]
  exact h.pools

theorem running (h : w.Peaceful) {p : PoolId} {pool : Pool} (hp : w.pools[p]? = some pool) :
    pool.worker.closing = false := by
  apply h.reachable.sound.open_of_kept hp
  rw [Pool.isKept, (h.pools pool (List.mem_of_getElem? hp)).1, Bool.true_or]

theorem work (h : w.Peaceful) {p : PoolId} {pool : Pool} (hp : w.pools[p]? = some pool)
    (reachable : Reachable (w.work p)) : (w.work p).Peaceful := by
  obtain ⟨registered, unheld, gentle⟩ := h.pools pool (List.mem_of_getElem? hp)
  have sound := h.reachable.sound
  rcases sound.work_cases hp with ⟨task, stage, -, added, turned, deed⟩ | own
  · obtain ⟨f, pools, carries⟩ := turned.pools
    have tasks := Worker.tasks_busy stage
    have mine := gentle task (by rw [tasks]; simp)
    apply h.modify reachable deed.follows.1 deed.follows.2 pools
    intro pool' hp'
    obtain rfl := Option.some.inj (hp.symm.trans hp')
    obtain ⟨carries, -⟩ := carries pool hp
    refine ⟨carries.registered.trans registered, ?_, ?_⟩
    · have same : w.work p = w.carryOn p task := by simp [World.work, hp, stage]
      apply carryOn_unheld hp mine
      rw [← same, pools, List.getElem?_modify_eq, hp]
      rfl
    · intro next member
      obtain new | old := Multiset.mem_add.mp (carries.tasks.mem member)
      · exact h.deed deed mine next new
      · exact gentle next (by rw [tasks]; exact Multiset.mem_add.mpr (.inr old))
  · apply h.modify reachable (own ▸ .refl .refl _) (own ▸ .refl .refl _) (p := p)
      (f := fun pool => { pool with worker := pool.worker.advance w.now })
    · rw [own]
      rfl
    · intro pool' hp'
      obtain rfl := Option.some.inj (hp.symm.trans hp')
      have advanced := Worker.advance_sound (sound.workers pool (List.mem_of_getElem? hp))
      refine ⟨registered, Worker.advance_not_held _ _, fun task member => ?_⟩
      exact gentle task (advanced.1.tasks.mem member)

theorem pass (h : w.Peaceful) (pass : Pass w w') : w'.Peaceful := by
  have reachable := h.reachable.later (.single pass.step)
  cases pass with
  | move moved =>
    obtain ⟨p, pool, hp, -, rfl⟩ | ⟨-, i, -, -, -, -, -, rfl⟩ := move?_cases moved
    · exact h.work hp reachable
    · apply h.of_pools reachable (by rw [attend_schedulers]; exact .refl .refl _)
        (by rw [attend_caches]; exact .refl .refl _)
      rw [attend_pools]
      exact h.pools
  | tick => exact h.of_pools reachable (.refl .refl _) (.refl .refl _) h.pools

theorem passes (h : w.Peaceful) (passes : Passes w w') : w'.Peaceful := by
  induction passes with
  | refl => exact h
  | tail _ step ih => exact ih.pass step

theorem sameSize_pass (h : w.Peaceful) (pass : Pass w w') : SameSize w w' := by
  cases pass with
  | move moved =>
    obtain ⟨p, pool, hp, -, rfl⟩ | ⟨-, i, -, -, -, -, -, rfl⟩ := move?_cases moved
    · rcases h.reachable.sound.work_cases hp with ⟨task, -, -, added, turned, deed⟩ | own
      · obtain ⟨f, pools, -⟩ := turned.pools
        refine ⟨?_, deed.follows.1.length_eq, deed.follows.2.length_eq⟩
        rw [pools, List.length_modify]
      · rw [own]
        exact ⟨List.length_modify .., rfl, rfl⟩
    · exact ⟨by rw [attend_pools], by rw [attend_schedulers], by rw [attend_caches]⟩
  | tick => exact ⟨rfl, rfl, rfl⟩

theorem sameSize_passes (h : w.Peaceful) (passes : Passes w w') : SameSize w w' := by
  induction passes with
  | refl => exact .refl w
  | tail before pass ih => exact ih.trans ((h.passes before).sameSize_pass pass)

theorem due (h : w.Peaceful) (still : ∀ pool ∈ w.pools, pool.worker.isReady w.now = false)
    {p : PoolId} {pool : Pool} (hp : w.pools[p]? = some pool) {task : Task}
    (member : task ∈ pool.worker.tasks) :
    ∃ due, task.due? = some due ∧ w.now < due ∧ ∃ next, w.nextTime? = some next ∧ next ≤ due := by
  obtain ⟨holder, free, stage, -⟩ | due := due_of_still h.reachable.sound still hp member
  · exact ((h.pools pool (List.mem_of_getElem? hp)).2.1 holder free stage).elim
  · exact due

theorem atRest (h : w.Peaceful) (still : ∀ pool ∈ w.pools, pool.worker.isReady w.now = false)
    (shows : w.Shows c x) : x.AtRest := by
  intro task member
  rw [shows.live, mem_live] at member
  obtain ⟨p, pool, hp, member, -⟩ := member
  obtain ⟨due, hd, ahead, -⟩ := h.due still hp member
  exact ⟨due, shows.now ▸ ahead, .inl hd⟩

end Peaceful

namespace Shows

theorem stays (shows : w.Shows c x) (now : w'.now = w.now)
    (hs : w'.schedulers[x.cache.scheduler]? = w.schedulers[x.cache.scheduler]?)
    (hc : w'.caches[c]? = w.caches[c]?)
    (live : w'.live x.cache.scheduler = w.live x.cache.scheduler) : w'.Shows c x :=
  ⟨hc.trans shows.cache, hs.trans shows.scheduler, shows.now.trans now.symm,
    shows.live.trans live.symm⟩

theorem attended (shows : w.Shows c x) (i : Nat) : (w.attend i).Shows c x :=
  shows.stays (w.attend_now i) (by rw [attend_schedulers]) (by rw [attend_caches])
    (live_congr (w.attend_pools i) _)

theorem noted (shows : w.Shows c x) (notice : Notice) : (w.note notice).Shows c x :=
  shows.stays (w.note_now _) (by rw [note_schedulers]) (by rw [note_caches])
    (live_congr (w.note_pools _) _)

end Shows

theorem live_onWorker {p : PoolId} {f : Worker Task → Worker Task}
    (each : ∀ pool, w.pools[p]? = some pool → (f pool.worker).tasks = pool.worker.tasks)
    (s : SchedulerId) : (w.onWorker p f).live s = w.live s := by
  cases hp : w.pools[p]? with
  | none =>
    apply live_congr
    exact List.modify_eq_self (List.getElem?_eq_none_iff.mp hp)
  | some pool =>
    have pools : (w.onWorker p f).pools =
        w.pools.modify p fun pool => { pool with worker := f pool.worker } := rfl
    obtain ⟨beyond, was, is⟩ := tasks_modify hp pools
    unfold live
    rw [was, is, each pool hp]

namespace Peaceful

theorem shows_work (h : w.Peaceful) (shows : w.Shows c x) {p : PoolId} {pool : Pool}
    (hp : w.pools[p]? = some pool) : ∃ x', (w.work p).Shows c x' ∧ x.Moves x' := by
  have sound := h.reachable.sound
  have running := h.running hp
  rcases sound.work_cases hp with ⟨task, stage, fits, added, turned, deed⟩ | own
  · obtain ⟨f, pools, carries⟩ := turned.pools
    obtain ⟨beyond, was, is⟩ := tasks_modify hp pools
    rw [Worker.tasks_busy stage, add_assoc] at was
    rw [(carries pool hp).1.tasks.eq running, add_assoc] at is
    have same := deed.scheduler?
    have now : (w.work p).now = w.now := turned.apart.now
    generalize pool.worker.others + beyond = rest at was is
    have lived : x.live =
        ({task} : Multiset Task).filter (·.scheduler? = some x.cache.scheduler) +
          rest.filter (·.scheduler? = some x.cache.scheduler) := by
      rw [shows.live, live, was, Multiset.filter_add]
    have lives : (w.work p).live x.cache.scheduler =
        added.filter (·.scheduler? = some x.cache.scheduler) +
          rest.filter (·.scheduler? = some x.cache.scheduler) := by
      rw [live, is, Multiset.filter_add]
    rw [Multiset.filter_singleton] at lived
    by_cases mine : task.scheduler? = some x.cache.scheduler
    · obtain ⟨scheduler, cache, hs, hc, turn⟩ := deed.turn sound shows fits mine
      rw [if_pos mine] at lived
      rw [Multiset.filter_eq_self.mpr fun next hn => (same next hn).trans mine] at lives
      have there := turn.follows.scheduler
      refine ⟨⟨x.now, cache, scheduler, added + _⟩, ⟨hc, ?_, shows.now.trans now.symm, ?_⟩,
        .single (.turn lived turn)⟩
      · rwa [there]
      · rw [there, lives]
    · rw [if_neg mine, Multiset.empty_eq_zero, zero_add] at lived
      rw [Multiset.filter_eq_nil.mpr fun next hn => (same next hn) ▸ mine, zero_add,
        ← lived] at lives
      obtain ⟨hs, hc⟩ := deed.other shows fits mine
      exact ⟨x, shows.stays now hs hc (lives.trans shows.live), .refl⟩
  · refine ⟨x, ?_, .refl⟩
    rw [own]
    refine shows.stays rfl rfl rfl (live_onWorker ?_ _)
    intro pool' hp'
    obtain rfl := Option.some.inj (hp.symm.trans hp')
    exact (Worker.advance_sound (sound.workers pool (List.mem_of_getElem? hp))).1.tasks.eq running

theorem shows_pass (h : w.Peaceful) (shows : w.Shows c x) (pass : Pass w w') :
    ∃ x', w'.Shows c x' ∧ x.Moves x' := by
  cases pass with
  | move moved =>
    obtain ⟨p, pool, hp, -, rfl⟩ | ⟨-, i, -, -, -, -, -, rfl⟩ := move?_cases moved
    · exact h.shows_work shows hp
    · exact ⟨x, shows.attended i, .refl⟩
  | @tick t quiet later next =>
    refine ⟨{ x with now := t }, ⟨shows.cache, shows.scheduler, rfl, shows.live⟩, .single ?_⟩
    refine .tick (shows.now ▸ later) fun task member => ?_
    rw [shows.live, mem_live] at member
    obtain ⟨p, pool, hp, member, -⟩ := member
    obtain ⟨due, hd, ahead, time, first, le⟩ := h.due (move?_none quiet).1 hp member
    exact ⟨due, hd, shows.now ▸ ahead, (next time first).trans le⟩

theorem shows_passes (h : w.Peaceful) (shows : w.Shows c x) (passes : Passes w w') :
    ∃ x', w'.Shows c x' ∧ x.Moves x' := by
  induction passes with
  | refl => exact ⟨x, shows, .refl⟩
  | tail before step ih =>
    obtain ⟨x', shows', moves⟩ := ih
    obtain ⟨x'', shows'', moves'⟩ := (h.passes before).shows_pass shows' step
    exact ⟨x'', shows'', moves.trans moves'⟩

end Peaceful
end World
end TokenKeeper
