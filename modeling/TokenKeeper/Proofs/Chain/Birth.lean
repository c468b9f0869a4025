import TokenKeeper.Proofs.Chain.Shown
/-! A cache comes into being with one run to begin. From then on the world shows what its chain has
become, so an invariant of chains holds of every cache there is. -/
namespace TokenKeeper

structure Chain.Fresh (x : Chain) : Prop where
  attempts : x.cache.attempts = []
  current : x.cache.current = none
  ready : x.cache.ready = false
  dropped : x.cache.dropped = false
  running : x.scheduler.isShutDown = false
  live : ∃ submission, x.live = {.begin submission}

namespace World
variable {w w' : World} {c : CacheId}

theorem Asks.caches {s : SchedulerId} (asks : Asks w w' s) : w'.caches = w.caches := by
  obtain same | ⟨_, _, _, _, -, -, -, -, -, same⟩ := asks
  · obtain rfl | ⟨notice, -, rfl⟩ := same
    · rfl
    · exact w.note_caches notice
  · obtain ⟨notice, -, rfl⟩ := same
    exact note_caches _ notice

@[simp] theorem shutdown_caches (w : World) (s : SchedulerId) :
    (w.shutdown none s).1.caches = w.caches := by
  rcases w.shutdown_cases none s with same | ⟨_, q, -, -, notice, -, shut⟩
  · rw [same]
  · rw [shut, release_caches, note_caches]
    rfl

theorem poolFor_rest {identity : Identity} {p : PoolId} (h : w.poolFor identity = (.ok p, w')) :
    w'.now = w.now ∧ w'.schedulers = w.schedulers ∧ w'.caches = w.caches := by
  obtain ⟨rfl | ⟨notice, -, rfl⟩, -⟩ := poolFor_ok h
  · exact ⟨rfl, rfl, rfl⟩
  · exact ⟨note_now _ _, note_schedulers _ _, note_caches _ _⟩

/-- A cache that was not there before has just been opened. -/
theorem Step.born (h : w.Sound) (step : Step w w') {cache : Cache}
    (hc : w'.caches[c]? = some cache) (new : w.caches[c]? = none) :
    ∃ config issuer, w.openCache config issuer = (.ok c, w') := by
  have old {w' : World} (hc : w'.caches[c]? = some cache)
      (follows : Pointwise Cache.Follows w.caches w'.caches) : False := by
    obtain ⟨cache', hc', -⟩ := follows.of_get hc
    rw [new] at hc'
    cases hc'
  have still {w' : World} (hc : w'.caches[c]? = some cache) (same : w'.caches = w.caches) : False :=
    old hc (same ▸ .refl .refl _)
  cases step with
  | move moved =>
    obtain ⟨p, pool, hp, -, rfl⟩ | ⟨-, i, -, -, -, -, -, rfl⟩ := move?_cases moved
    · exact (old hc (h.work_caches hp)).elim
    · exact (still hc (w.attend_caches i)).elim
  | arrive => exact (still hc (w.attend_caches _)).elim
  | note => exact (still hc (w.note_caches _)).elim
  | giveHandle | unregister => exact (still hc (release_caches _ _)).elim
  | start => exact (still hc (start_asks _ _).caches).elim
  | schedule => exact (still hc (schedule_asks _ _ _).caches).elim
  | shutdown => exact (still hc (w.shutdown_caches _)).elim
  | dropCache => exact (old hc (.modify .refl fun _ _ => ⟨rfl, rfl, rfl⟩)).elim
  | openCache opens =>
    rename_i config issuer c'
    have at_end := opens
    obtain ⟨p, opened, had, rfl, rfl⟩ := openCache_ok opens
    rw [(start_asks _ _).caches] at hc
    obtain there | ⟨rfl, -⟩ := getElem?_concat_cases hc
    · rw [(poolFor_rest had).2.2, new] at there
      cases there
    · exact ⟨config, issuer, at_end⟩
  | _ => exact (still hc rfl).elim

theorem submit_pools (w : World) (p : PoolId) (task : Task) :
    (w.submit none p task).pools =
      w.pools.modify p fun pool => { pool with worker := pool.worker.submit task } := by
  simp only [World.submit, reduceCtorEq, if_false]
  rfl

theorem Sound.live_new (h : w.Sound) : w.live w.schedulers.length = 0 := by
  refine Multiset.eq_zero_of_forall_notMem fun task ht => ?_
  obtain ⟨p, pool, hp, ht, same⟩ := mem_live.mp ht
  obtain ⟨scheduler, hs⟩ := (h.tasks p pool hp task ht).1.scheduler same
  simp at hs

theorem Sound.openCache (h : w.Sound) {config : Config} {issuer : Issuer}
    (opens : w.openCache config issuer = (.ok c, w')) :
    ∃ x, w'.Shows c x ∧ x.Fresh ∧ x.now = w.now ∧ x.cache.config = config ∧
      x.cache.issuer = issuer := by
  obtain ⟨p, opened, had, rfl, rfl⟩ := openCache_ok opens
  have sound := h.poolFor had
  obtain ⟨-, pool, hp, kept⟩ := poolFor_ok had
  have hs : (opened.withCache p config issuer).schedulers[opened.schedulers.length]? =
      some { job := .refresh opened.caches.length, pool := some p } := List.getElem?_concat_length
  obtain ⟨notice, -, started⟩ := start_open none hs rfl rfl
  rw [started]
  have closing := sound.open_of_kept hp kept
  obtain ⟨now, -, -⟩ := poolFor_rest had
  refine ⟨⟨w.now, { config := config, issuer := issuer, scheduler := opened.schedulers.length },
    { job := .refresh opened.caches.length, pool := some p, started := true, accepted := 1 },
    {.begin ⟨opened.schedulers.length, 0⟩}⟩, ⟨?_, ?_, ?_, ?_⟩,
    ⟨rfl, rfl, rfl, rfl, rfl, _, rfl⟩, rfl, rfl, rfl⟩
  · rw [note_caches]
    exact List.getElem?_concat_length
  · rw [note_schedulers]
    exact (List.getElem?_modify_eq ..).trans (congrArg (Option.map _) hs)
  · rw [note_now]
    exact now.symm
  · let first : Task := .begin ⟨opened.schedulers.length, 0⟩
    have submitted := submit_pools (opened.withCache p config issuer) p first
    have there : (opened.withCache p config issuer).pools[p]? = some pool := hp
    obtain ⟨beyond, was, is⟩ := tasks_modify there submitted
    have nothing : (opened.withCache p config issuer).live opened.schedulers.length = 0 :=
      sound.live_new
    have more := (pool.worker.submit_tasks first).eq closing
    rw [live_congr (note_pools _ _)]
    unfold World.live at nothing ⊢
    rw [was] at nothing
    change _ = Multiset.filter _ (World.tasks (World.submit _ none p first))
    rw [is, more, add_assoc, Multiset.filter_add, nothing, add_zero]
    refine (Multiset.filter_eq_self.mpr fun task ht => ?_).symm
    rw [Multiset.mem_singleton.mp ht]
    rfl

theorem Shows.later {x : Chain} (shows : w.Shows c x) (h : w.Sound) (later : Later w w') :
    Shown True w' c x := by
  induction later with
  | refl => exact ⟨x, shows, .refl⟩
  | tail before step ih =>
    obtain ⟨x', shows', later'⟩ := ih
    obtain ⟨x'', shows'', later''⟩ := shows'.step (h.later before) step
    exact ⟨x'', shows'', later'.trans (Chain.Later.mono later'' fun _ => trivial)⟩

/-- What the world shows of a cache comes from the time when it was opened. -/
theorem Reachable.chain (h : Reachable w) {cache : Cache} (hc : w.caches[c]? = some cache) :
    ∃ first x, first.Fresh ∧ Chain.Later True first x ∧ w.Shows c x ∧ x.cache = cache := by
  suffices reached : ∃ first, first.Fresh ∧ Shown True w c first by
    obtain ⟨first, fresh, x, shows, later⟩ := reached
    exact ⟨first, x, fresh, later, shows, Option.some.inj (shows.cache.symm.trans hc)⟩
  obtain ⟨now, verbosity, run⟩ := h
  induction run generalizing cache with
  | refl => simp at hc
  | @tail middle last before step ih =>
    have sound : middle.Sound := Reachable.sound ⟨now, verbosity, before⟩
    cases there : middle.caches[c]? with
    | none =>
      obtain ⟨config, issuer, opens⟩ := step.born sound hc there
      obtain ⟨x, shows, fresh, -⟩ := sound.openCache opens
      exact ⟨x, fresh, x, shows, .refl⟩
    | some cache' =>
      obtain ⟨first, fresh, x, shows, later⟩ := ih there
      obtain ⟨x', shows', later'⟩ := shows.later sound (.single step)
      exact ⟨first, fresh, x', shows', later.trans later'⟩

theorem Shows.history {x : Chain} (shows : w.Shows c x) (h : Reachable w) :
    ∃ first, first.Fresh ∧ Chain.Later True first x := by
  obtain ⟨first, x', fresh, later, shows', -⟩ := h.chain shows.cache
  obtain rfl : x' = x := shows'.unique shows
  exact ⟨first, fresh, later⟩

end World
end TokenKeeper
