import TokenKeeper.Proofs.Chain.Published
/-! Moments in which no load of a cache goes on any more. As long as the clock stands still then,
nothing is published. -/
namespace TokenKeeper

namespace World
variable {w w' : World} {c : CacheId} {s : SchedulerId}

def Calm (w : World) (s : SchedulerId) : Prop :=
  ∀ (p : PoolId) pool, w.pools[p]? = some pool → ∀ task ∈ pool.worker.tasks,
    task.scheduler? = some s →
      (∃ holder free, pool.worker.stage = .held holder free ∧ w.now < free) ∨ task.Rests w.now

theorem Sound.calm (h : w.Sound) (still : ∀ pool ∈ w.pools, pool.worker.isReady w.now = false)
    (s : SchedulerId) : w.Calm s := by
  intro p pool hp task ht mine
  refine (due_of_still h still hp ht).imp_right fun ⟨due, hd, ahead, _⟩ => ?_
  exact ⟨due, ahead, .inl hd⟩

theorem Calm.congr (calm : w.Calm s) (now : w'.now = w.now) (pools : w'.pools = w.pools) :
    w'.Calm s := by
  unfold Calm
  rw [now, pools]
  exact calm

theorem Calm.rests (calm : w.Calm s) {p : PoolId} {pool : Pool} (hp : w.pools[p]? = some pool)
    (ready : pool.worker.isReady w.now = true) {task : Task} (ht : task ∈ pool.worker.tasks)
    (mine : task.scheduler? = some s) : task.Rests w.now := by
  rcases calm p pool hp task ht mine with ⟨holder, free, stage, ahead⟩ | rests
  · simp only [Worker.isReady, stage, decide_eq_true_eq] at ready
    exact absurd ahead ready.not_gt
  · exact rests

theorem Calm.modify (calm : w.Calm s) (now : w'.now = w.now) {p : PoolId} {f : Pool → Pool}
    (pools : w'.pools = w.pools.modify p f)
    (each : ∀ pool, w.pools[p]? = some pool → ∀ task ∈ (f pool).worker.tasks,
      task.scheduler? = some s → task.Rests w.now) : w'.Calm s := by
  intro q pool' hq task ht mine
  rw [pools] at hq
  obtain ⟨pool, hp, rfl⟩ := getElem?_modify_cases hq
  rw [now]
  split at ht
  · rename_i same
    subst same
    exact .inr (each pool hp task ht mine)
  · rename_i other
    rw [if_neg other]
    exact calm q pool hp task ht mine

/-- Until time goes by, nothing is published. -/
theorem Calm.happens {x : Chain} (calm : w.Calm x.cache.scheduler) (h : w.Sound)
    (shows : w.Shows c x) (happens : Happens w w') (now : w'.now = w.now) :
    w'.Calm x.cache.scheduler ∧
      ∃ cache, w'.caches[c]? = some cache ∧ cache.publications = x.cache.publications := by
  cases happens with
  | time =>
    exact ⟨calm.congr now rfl, x.cache, shows.cache, rfl⟩
  | attend =>
    exact ⟨calm.congr now (attend_pools _ _), x.cache, by rw [attend_caches, shows.cache], rfl⟩
  | beside beside =>
    obtain ⟨cache, hc, keeps⟩ := beside.caches c x.cache shows.cache
    refine ⟨fun p pool' hp' task ht' mine => ?_, cache, hc,
      Cache.publications_congr keeps.attempts keeps.config⟩
    rcases beside.tasks p pool' hp' task ht' with foreign | ⟨pool, hp, stage, ht⟩
    · exact absurd mine (foreign c x.cache shows.cache)
    · rw [stage, now]
      exact calm p pool hp task ht mine
  | @work p pool hp ready =>
    rcases h.work_cases hp with ⟨task, stage, fits, added, turned, deed⟩ | own
    · obtain ⟨f, pools, carries⟩ := turned.pools
      have tasks := Worker.tasks_busy stage
      have others {next : Task} (hn : next ∈ pool.worker.others)
          (mine : next.scheduler? = some x.cache.scheduler) : next.Rests w.now :=
        calm.rests hp ready (tasks ▸ Multiset.mem_add.mpr (.inr hn)) mine
      have left {next : Task} (hn : next ∈ (f pool).worker.tasks) :=
        Multiset.mem_add.mp ((carries pool hp).1.tasks.mem hn)
      -- A run of the scheduler that comes to hand still rests, so nothing comes of its turn.
      by_cases mine : task.scheduler? = some x.cache.scheduler
      · have rests := calm.rests hp ready (by rw [tasks]; simp) mine
        rw [← shows.now] at rests
        obtain ⟨scheduler, cache, -, hc, turn⟩ := deed.turn h shows fits mine
        obtain ⟨added_rest, rfl⟩ := turn.rests rests
        rw [shows.now] at added_rest
        refine ⟨calm.modify now pools fun pool' hp' next hn same => ?_, _, hc, rfl⟩
        obtain rfl := Option.some.inj (hp.symm.trans hp')
        exact (left hn).elim (added_rest next) fun old => others old same
      · obtain ⟨-, hc⟩ := deed.other shows fits mine
        refine ⟨calm.modify now pools fun pool' hp' next hn same => ?_, x.cache,
          hc.trans shows.cache, rfl⟩
        obtain rfl := Option.some.inj (hp.symm.trans hp')
        refine (left hn).elim (fun new => ?_) fun old => others old same
        exact absurd (deed.scheduler? next new ▸ same) mine
    · rw [own]
      refine ⟨calm.modify (p := p) rfl rfl fun pool' hp' next hn same => ?_, x.cache,
        shows.cache, rfl⟩
      have sound := h.workers pool' (List.mem_of_getElem? hp')
      obtain rfl := Option.some.inj (hp.symm.trans hp')
      exact calm.rests hp ready ((Worker.advance_sound sound).1.tasks.mem hn) same

end World
end TokenKeeper
