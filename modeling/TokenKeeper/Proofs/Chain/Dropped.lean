import TokenKeeper.Proofs.Chain.Closed
import TokenKeeper.Proofs.Docket.Calls
import TokenKeeper.Proofs.World.Registry
/-! What a cache still does once it has been dropped. A run that begins then finds its cache gone
and calls no issuer, and no run asks for another. Only while the end of a foreground pool is waited
for is the cache still there for a run to find. -/
namespace TokenKeeper

def Task.isToBegin : Task → Bool
  | begin _ => true
  | _ => false

namespace Chain
variable {held exact : Prop} {start : Instant} {x x' : Chain} {n : Nat} {task : Task}
  {added : Multiset Task} {scheduler : Scheduler} {cache : Cache}

def runsAhead (x : Chain) : Nat := x.scheduler.runs.length + x.live.countP (·.isToBegin)

theorem Turn.begun (turn : x.Turn task added scheduler cache)
    (off : x.scheduler.isShutDown = true) :
    scheduler.accepted = x.scheduler.accepted ∧
      scheduler.runs.length + added.countP (·.isToBegin) ≤
        x.scheduler.runs.length + ({task} : Multiset Task).countP (·.isToBegin) := by
  cases turn with
  | wait _ on | conclude on => simp [off] at on
  | enter begins =>
    cases begins with
    | atOnce => exact ⟨rfl, by rw [Scheduler.enter, List.length_append]; exact le_rfl⟩
    | waited _ on => cases off.symm.trans on
  | enterDropped begins =>
    cases begins with
    | atOnce => exact ⟨rfl, by simp [Scheduler.enter, Scheduler.endRun]; exact le_rfl⟩
    | waited _ on => cases off.symm.trans on
  | abandon | concludeLast => simp [Scheduler.abandon, Scheduler.endRun]
  | call | pause | resume | endCall => exact ⟨rfl, le_rfl⟩

theorem Turn.runs_le (turn : x.Turn task added scheduler cache) :
    x.scheduler.runs.length ≤ scheduler.runs.length := by
  cases turn <;>
    simp [Scheduler.enter, Scheduler.endRun, Scheduler.abandon, Scheduler.accept]

theorem Later.runs_le (later : Chain.Later held x x') :
    x.scheduler.runs.length ≤ x'.scheduler.runs.length := by
  induction later with
  | refl => exact le_rfl
  | tail _ step ih =>
    apply ih.trans
    cases step with
    | turn _ turn => exact turn.runs_le
    | tick | lose | shut | drop => exact le_rfl

theorem Later.begun (later : Chain.Later held x x') (off : x.scheduler.isShutDown = true) :
    x'.scheduler.accepted = x.scheduler.accepted ∧ x'.runsAhead ≤ x.runsAhead := by
  induction later with
  | refl => simp
  | @tail y z before step ih =>
    suffices one : z.scheduler.accepted = y.scheduler.accepted ∧ z.runsAhead ≤ y.runsAhead by
      exact ⟨one.1.trans ih.1, one.2.trans ih.2⟩
    unfold runsAhead
    cases step with
    | turn live turn =>
      have := turn.begun (Later.shut_card before off).1
      simp only [live, Multiset.countP_add]
      omega
    | lose _ le =>
      have := Multiset.countP_le_of_le (·.isToBegin) le
      simpa using this
    | tick | shut | drop => simp [Scheduler.letGo]

theorem Turn.loads (turn : x.Turn task added scheduler cache) {run : RunId} {c : CacheId}
    (hn : .fetch run c ∈ added) : x.cache.dropped = false ∧
      run.place = x.scheduler.runs.length ∧
      scheduler.runs.length = x.scheduler.runs.length + 1 := by
  cases turn with
  | enter _ kept =>
    cases Multiset.mem_singleton.mp hn
    exact ⟨kept, rfl, by simp [Scheduler.enter]⟩
  | _ => simp at hn

def LoadsWithin (x : Chain) (n : Nat) : Prop := ∀ run c, .fetch run c ∈ x.live → run.place < n

theorem Later.loadsWithin (later : Chain.Later held x x')
    (h : x.LoadsWithin x.scheduler.runs.length) : x'.LoadsWithin x'.scheduler.runs.length := by
  induction later with
  | refl => exact h
  | tail _ step ih =>
    intro run c ht
    cases step with
    | turn live turn =>
      obtain new | old := Multiset.mem_add.mp ht
      · obtain ⟨-, place, more⟩ := turn.loads new
        simp [place, more]
      · exact (ih run c (by simp [live, old])).trans_le turn.runs_le
    | lose _ le => exact ih run c (Multiset.mem_of_le le ht)
    | tick | shut | drop => exact ih run c ht

/-- Once the cache is dropped no further run goes on to load. -/
theorem Later.loadsWithin_of_dropped (later : Chain.Later held x x')
    (dropped : x.cache.dropped = true) (h : x.LoadsWithin n) : x'.LoadsWithin n := by
  suffices both : x'.cache.dropped = true ∧ x'.LoadsWithin n from both.2
  induction later with
  | refl => exact ⟨dropped, h⟩
  | tail _ step ih =>
    obtain ⟨gone, within⟩ := ih
    cases step with
    | turn live turn =>
      refine ⟨by rw [turn.dropped, gone], fun run c ht => ?_⟩
      obtain new | old := Multiset.mem_add.mp ht
      · simpa [gone] using (turn.loads new).1
      · exact within run c (by simp [live, old])
    | lose _ le => exact ⟨gone, fun run c ht => within run c (Multiset.mem_of_le le ht)⟩
    | tick | shut => exact ⟨gone, within⟩
    | drop => exact ⟨rfl, within⟩

theorem Turn.caller (turn : x.Turn task added scheduler cache)
    (more : x.cache.attempts.length < cache.attempts.length) : ∃ run c, task = .fetch run c := by
  cases turn with
  | call => exact ⟨_, _, rfl⟩
  | endCall => simp [Cache.endCall, Cache.onLatest_length] at more
  | conclude | concludeLast => simp [Cache.conclude_length] at more
  | _ => simp at more

end Chain

namespace World
variable {w w' w₁ : World} {c : CacheId} {cache cache' : Cache} {scheduler : Scheduler}

/-- The run that calls the issuer is the live one, and was about to. -/
theorem Step.caller (h : Reachable w) (step : Step w w') (hc : w.caches[c]? = some cache)
    (hc' : w'.caches[c]? = some cache') (more : cache.calls.length < cache'.calls.length) :
    ∃ run c', w.live cache.scheduler = {.fetch run c'} := by
  obtain ⟨x, shows, rfl⟩ := h.sound.shows hc
  obtain ⟨start, sound⟩ := shows.sound h
  suffices about : ∃ run c', .fetch run c' ∈ x.live by
    obtain ⟨run, c', ht⟩ := about
    exact ⟨run, c', by rw [← shows.live, sound.live_eq ht]⟩
  have not_same (same : w'.caches[c]? = w.caches[c]?) : False := by
    rw [hc', hc, Option.some.injEq] at same
    simp [same] at more
  simp only [Cache.calls, List.length_reverse] at more
  cases step.happens h.sound with
  | time => exact (not_same rfl).elim
  | attend => exact (not_same (by rw [attend_caches])).elim
  | beside beside =>
    obtain ⟨cache'', hc'', keeps⟩ := beside.caches c _ hc
    rw [hc', Option.some.injEq] at hc''
    simp [hc'', keeps.attempts] at more
  | @work p pool hp =>
    obtain ⟨task, stage, fits, added, -, deed⟩ | own := h.sound.work_cases hp
    · by_cases mine : task.scheduler? = some x.cache.scheduler
      · obtain ⟨_, cache'', -, hc'', turn⟩ := deed.turn h.sound shows fits mine
        rw [hc', Option.some.injEq] at hc''
        obtain ⟨run, c', rfl⟩ := turn.caller (hc'' ▸ more)
        refine ⟨run, c', ?_⟩
        rw [shows.live, mem_live]
        exact ⟨p, pool, hp, by simp [Worker.tasks_busy stage], mine⟩
      · exact (not_same (deed.other shows fits mine).2).elim
    · exact (not_same (by rw [own]; rfl)).elim

theorem dropCache_retires (hc : w.caches[c]? = some cache) (dropped : w.dropCache c = some w₁) :
    ∃ done after, w.retire cache.scheduler = some (done, after) ∧
      w₁ = (if done then after.note .cacheClosed else after).onCache c
        fun cache => { cache with dropped := true } := by
  obtain ⟨closed, closes, rest⟩ := Option.bind_eq_some_iff.mp dropped
  cases rest
  unfold close at closes
  simp only [hc] at closes
  obtain ⟨⟨done, after⟩, retired, rest⟩ := Option.bind_eq_some_iff.mp closes
  cases rest
  exact ⟨done, after, retired, rfl⟩

theorem dropCache_after_shutdown (h : Reachable w) (hc : w.caches[c]? = some cache)
    (dropped : w.dropCache c = some w₁) :
    Later (w.shutdown none cache.scheduler).1 w₁ ∧
      ∃ cache₁, w₁.caches[c]? = some cache₁ ∧ cache₁.dropped = true := by
  obtain ⟨done, after, retired, rfl⟩ := dropCache_retires hc dropped
  have shut : Reachable (w.shutdown none cache.scheduler).1 := h.later (.single (.shutdown _))
  have noted : Later after (if done then after.note .cacheClosed else after) := by
    split
    · exact .single (.note rfl)
    · exact .refl
  have later := (retire_later h retired).trans noted
  obtain ⟨x, shows, same⟩ := shut.sound.shows
    ((congrArg (·[c]?) (w.shutdown_caches cache.scheduler)).trans hc)
  obtain ⟨x', shows', later'⟩ := shows.later shut.sound later
  have off := w.shutdown_isShutDown _ (same ▸ shows.scheduler)
  have off' := (Chain.Later.shut_card later' off).1
  refine ⟨later.tail (.dropCache shows'.cache shows'.scheduler off'),
    { x'.cache with dropped := true }, ?_, rfl⟩
  simp [onCache, shows'.cache]

theorem Shows.loadsWithin {x : Chain} (shows : w.Shows c x) (h : Reachable w) :
    x.LoadsWithin x.scheduler.runs.length := by
  obtain ⟨first, fresh, later⟩ := shows.history h
  obtain ⟨submission, live⟩ := fresh.live
  apply Chain.Later.loadsWithin later
  simp [Chain.LoadsWithin, live]

theorem shutdown_live (hc : w.caches[c]? = some cache) {s : SchedulerId} {task : Task}
    (ht : task ∈ (w.shutdown none s).1.live cache.scheduler) : task ∈ w.live cache.scheduler := by
  obtain ⟨p, pool', hp', ht', mine⟩ := mem_live.mp ht
  obtain foreign | ⟨pool, hp, -, there⟩ := (Beside.shutdown w s).tasks p pool' hp' task ht'
  · exact absurd mine (foreign c cache hc)
  · exact mem_live.mpr ⟨p, pool, hp, there, mine⟩

/-- The shutdown leaves the runs as they are, and all that follows it is a run of a closed chain. -/
theorem dropCache_chain (h : Reachable w) (hc : w.caches[c]? = some cache)
    (hs : w.schedulers[cache.scheduler]? = some scheduler) (dropped : w.dropCache c = some w₁) :
    ∃ x x₁, (w.shutdown none cache.scheduler).1.Shows c x ∧ x.cache = cache ∧
      x.scheduler = scheduler.letGo ∧ w₁.Shows c x₁ ∧ Chain.Later True x x₁ ∧
      x₁.cache.dropped = true ∧ x₁.cache.scheduler = cache.scheduler := by
  obtain ⟨later, cache₁, hc₁, gone⟩ := dropCache_after_shutdown h hc dropped
  have shut : Reachable (w.shutdown none cache.scheduler).1 := h.later (.single (.shutdown _))
  obtain ⟨x, shows, same⟩ := shut.sound.shows
    ((congrArg (·[c]?) (w.shutdown_caches cache.scheduler)).trans hc)
  obtain ⟨x₁, shows₁, later₁⟩ := shows.later shut.sound later
  refine ⟨x, x₁, shows, same, ?_, shows₁, later₁, ?_, ?_⟩
  · have there := shows.scheduler
    rw [same, (shutdown_schedulers none hs).2, List.getElem?_modify_eq, hs] at there
    exact (Option.some.inj there).symm
  · rw [Option.some.inj (shows₁.cache.symm.trans hc₁), gone]
  · exact (Chain.Later.follows later₁).scheduler.trans (congrArg Cache.scheduler same)

/-- At most one run begins while a cache is dropped, and only if the end of a foreground pool is
waited for. -/
theorem runs_while_dropped (h : Reachable w) (hc : w.caches[c]? = some cache)
    (hs : w.schedulers[cache.scheduler]? = some scheduler) (dropped : w.dropCache c = some w₁)
    {scheduler₁ : Scheduler} (hs₁ : w₁.schedulers[cache.scheduler]? = some scheduler₁) :
    scheduler₁.runs.length = scheduler.runs.length ∨
      scheduler₁.runs.length = scheduler.runs.length + 1 ∧
        (∃ submission, w.live cache.scheduler = {.begin submission}) ∧
        ∃ p pool, scheduler.pool = some p ∧ w₁.pools[p]? = some pool ∧
          pool.worker.closing = true ∧ pool.identity.background = false := by
  have shut : Reachable (w.shutdown none cache.scheduler).1 := h.later (.single (.shutdown _))
  obtain ⟨x, x₁, shows, same, letGo, shows₁, later₁, -, there⟩ := dropCache_chain h hc hs dropped
  rw [← there, shows₁.scheduler, Option.some.injEq] at hs₁
  subst hs₁
  obtain ⟨done, after, retired, left⟩ := dropCache_retires hc dropped
  obtain rfl | ⟨p, pool, on, hp, closing, foreground⟩ := retire_waits hs retired
  · left
    have noted (w : World) :
        (if done then w.note .cacheClosed else w).schedulers = w.schedulers := by
      split <;> simp
    have unchanged := shows₁.scheduler
    rw [left, there, onCache, noted, (shutdown_schedulers none hs).2, List.getElem?_modify_eq,
      hs] at unchanged
    simp [← Option.some.inj unchanged, Scheduler.letGo]
  · obtain ⟨-, ahead⟩ := Chain.Later.begun later₁ (by simp [letGo, Scheduler.letGo,
      Scheduler.isShutDown])
    have more := Chain.Later.runs_le later₁
    obtain ⟨start, sound⟩ := shows.sound shut
    have one := (Multiset.countP_le_card (·.isToBegin) x.live).trans sound.sole
    simp only [Chain.runsAhead, letGo, Scheduler.letGo] at ahead more
    -- A run has begun meanwhile only if it was about to, and then no other was live.
    rcases Nat.eq_zero_or_pos (x.live.countP (·.isToBegin)) with nothing | about
    · left
      omega
    · by_cases begins : x₁.scheduler.runs.length = scheduler.runs.length
      · exact .inl begins
      refine .inr ⟨by omega, ?_, p, ?_⟩
      · obtain ⟨task, ht, kind⟩ := Multiset.countP_pos.mp about
        rw [shows.live, same] at ht
        have member := shutdown_live hc ht
        obtain ⟨x₀, shows₀, rfl⟩ := h.sound.shows hc
        obtain ⟨start₀, sound₀⟩ := shows₀.sound h
        rw [← shows₀.live] at member ⊢
        rw [sound₀.live_eq member]
        cases task with
        | begin submission => exact ⟨submission, rfl⟩
        | _ => simp [Task.isToBegin] at kind
      · obtain ⟨later, -⟩ := dropCache_after_shutdown h hc dropped
        obtain ⟨pool₁, hp₁, follows⟩ := shut.sound.poolsFollow later p pool hp
        exact ⟨pool₁, on, hp₁, follows.closing closing, by rw [follows.identity, foreground]⟩

/-- Once a cache has been dropped no run asks for another, and none calls the issuer that had not
begun by then. Nor does a run begin while it is dropped, but for the one that was about to if the
end of a foreground pool is waited for. -/
theorem drop_ends_refreshing (h : Reachable w) (hc : w.caches[c]? = some cache)
    (hs : w.schedulers[cache.scheduler]? = some scheduler) (dropped : w.dropCache c = some w₁) :
    ∃ scheduler₁, w₁.schedulers[cache.scheduler]? = some scheduler₁ ∧
      (scheduler₁.runs.length = scheduler.runs.length ∨
        scheduler₁.runs.length = scheduler.runs.length + 1 ∧
          (∃ submission, w.live cache.scheduler = {.begin submission}) ∧
          ∃ p pool, scheduler.pool = some p ∧ w₁.pools[p]? = some pool ∧
            pool.worker.closing = true ∧ pool.identity.background = false) ∧
      ∀ w', Later w₁ w' →
        (∃ scheduler', w'.schedulers[cache.scheduler]? = some scheduler' ∧
          scheduler'.accepted = scheduler.accepted) ∧
        ∀ w'' cache' cache'', Step w' w'' → w'.caches[c]? = some cache' →
          w''.caches[c]? = some cache'' → cache'.calls.length < cache''.calls.length →
            ∃ run c', w'.live cache.scheduler = {.fetch run c'} ∧
              run.place < scheduler₁.runs.length := by
  have reached : Reachable w₁ := h.later (dropCache_later h dropped)
  obtain ⟨x, x₁, shows, -, letGo, shows₁, later₁, gone, there⟩ := dropCache_chain h hc hs dropped
  have hs₁ := there ▸ shows₁.scheduler
  refine ⟨x₁.scheduler, hs₁, runs_while_dropped h hc hs dropped hs₁, fun w' after => ?_⟩
  have off : x.scheduler.isShutDown = true := by rw [letGo]; rfl
  have off₁ := (Chain.Later.shut_card later₁ off).1
  obtain ⟨x', shows', later'⟩ := shows₁.later reached.sound after
  have there' := (Chain.Later.follows later').scheduler.trans there
  refine ⟨⟨x'.scheduler, there' ▸ shows'.scheduler, ?_⟩, ?_⟩
  · rw [(Chain.Later.begun later' off₁).1, (Chain.Later.begun later₁ off).1, letGo]
    rfl
  · intro w'' cache' cache'' step hc' hc'' more
    obtain ⟨run, c', alone⟩ := step.caller (reached.later after) hc' hc'' more
    obtain rfl := Option.some.inj (shows'.cache.symm.trans hc')
    have within := Chain.Later.loadsWithin_of_dropped later' gone (shows₁.loadsWithin reached)
    rw [there'] at alone
    exact ⟨run, c', alone, within run c' (by rw [shows'.live, there', alone]; simp)⟩

/-- Dropped before its first run has begun, the cache never calls its issuer. -/
theorem drop_ends_refreshing_solo : ∃ w₁, solo.dropCache 0 = some w₁ ∧
    ∀ w' w'' cache' cache'', Later w₁ w' → Step w' w'' → w'.caches[0]? = some cache' →
      w''.caches[0]? = some cache'' → cache''.calls.length ≤ cache'.calls.length := by
  have own : solo.caches[0]?.map (·.scheduler) = some 0 := by decide +kernel
  have unbegun : solo.schedulers[0]?.map (·.runs.length) = some 0 := by decide +kernel
  have open_still : ((solo.dropCache 0).bind (·.pools[0]?)).map (·.worker.closing) =
      some false := by decide +kernel
  have on : solo.schedulers[0]?.map (·.pool) = some (some 0) := by decide +kernel
  obtain ⟨cache, hc, same⟩ := Option.map_eq_some_iff.mp own
  obtain ⟨scheduler, hs, no_runs⟩ := Option.map_eq_some_iff.mp unbegun
  obtain ⟨pool, hp, closing⟩ := Option.map_eq_some_iff.mp open_still
  obtain ⟨w₁, dropped, hp⟩ := Option.bind_eq_some_iff.mp hp
  rw [hs, Option.map_some, Option.some.injEq] at on
  obtain ⟨scheduler₁, -, begun, after⟩ :=
    drop_ends_refreshing reachable_solo hc (same ▸ hs) dropped
  refine ⟨w₁, dropped, fun w' w'' cache' cache'' later step hc' hc'' => ?_⟩
  by_contra more
  obtain ⟨run, -, -, place⟩ := (after w' later).2 w'' cache' cache'' step hc' hc'' (by omega)
  obtain same_runs | ⟨-, -, p, pool', on', hp', ends, -⟩ := begun
  · omega
  · rw [on, Option.some.injEq] at on'
    subst on'
    rw [hp, Option.some.injEq] at hp'
    simp [← hp', closing] at ends

def foreground : World :=
  (({} : World).openCache { pool := { background := false } } (.fixed ⟨⟨"token"⟩, 30⟩)).2

/-- Dropped before its first run has begun, the last holder of a foreground pool waits for the end
of the pool, and the run that begins meanwhile calls the issuer. -/
theorem dropped_cache_calls : ∃ w w₁, Reachable w ∧
    w.schedulers[0]?.map (·.runs.length) = some 0 ∧ w.dropCache 0 = some w₁ ∧
    w₁.caches[0]?.map (·.calls.length) = some 1 := by
  have opened : Reachable foreground := reachable_new.later (.single (.openCache
    (show ({} : World).openCache { pool := { background := false } } (.fixed ⟨⟨"token"⟩, 30⟩) =
      (.ok 0, foreground) from rfl)))
  have calls : ((foreground.dropRegistry [0]).bind fun w => (w.dropCache 0).map fun w₁ =>
      (w.schedulers[0]?.map (·.runs.length), w₁.caches[0]?.map (·.calls.length))) =
      some (some 0, some 1) := by decide +kernel
  obtain ⟨w, unregistered, rest⟩ := Option.bind_eq_some_iff.mp calls
  obtain ⟨w₁, dropped, both⟩ := Option.map_eq_some_iff.mp rest
  rw [Prod.mk.injEq] at both
  exact ⟨w, w₁, opened.later (dropRegistry_later opened [0] unregistered), both.1, dropped, both.2⟩

end World
end TokenKeeper
