import TokenKeeper.Proofs.Chain.Alone
import TokenKeeper.Proofs.World.Readers
import TokenKeeper.World.Schedulers
/-! What is asked for from outside is done in small steps, and so is every wait for the workers and
readers to come to rest. What holds along all runs of steps goes on to hold. -/
namespace TokenKeeper.World
variable {w w' : World} {p : PoolId} {s : SchedulerId} {c : CacheId}

/-- Nothing in a quiet world goes on by itself at once, or should have gone on before. -/
theorem now_lt_nextTime? (h : Reachable w) (quiet : w.move? = none) {t : Instant}
    (next : w.nextTime? = some t) : w.now < t := by
  obtain ⟨workers, readers⟩ := move?_none quiet
  rcases List.mem_append.mp (List.min?_mem next) with worker | reader
  · obtain ⟨pool, hp, wakes⟩ := List.mem_filterMap.mp worker
    have still := workers pool hp
    unfold Worker.wakes at wakes
    split at wakes
    · rename_i stage
      obtain ⟨r, hr, rfl⟩ := List.mem_map.mp (List.min?_mem wakes)
      simp only [Worker.isReady, stage, Bool.or_eq_false_iff, List.any_eq_false,
        decide_eq_true_eq, Nat.not_le] at still
      exact still.2 r hr
    · rename_i stage
      cases wakes
      simpa [Worker.isReady, stage] using still
    · cases wakes
  · obtain ⟨reader, hr, wakes⟩ := List.mem_filterMap.mp reader
    obtain ⟨i, hi⟩ := List.mem_iff_getElem?.mp hr
    obtain ⟨⟨cache, hc⟩, -⟩ := h.awaited i reader hi
    have still := readers reader hr
    rw [isDue, hc, Option.any_some] at still
    unfold Reader.wakes at wakes
    split at wakes
    · rename_i stage
      cases wakes
      simpa [Reader.isDue, stage] using still
    · rename_i stage
      cases wakes
      simp only [Reader.isDue, stage, Bool.or_eq_false_iff, decide_eq_false_iff_not,
        Nat.not_le] at still
      exact still.1
    · cases wakes

theorem wait_next (h : Reachable w) (quiet : w.move? = none) {limit : Option Instant}
    {t : Instant} (ahead : ∀ time, limit = some time → w.now < time)
    (first : (w.nextTime?.toList ++ limit.toList).min? = some t) :
    Pass w { w with now := t } ∧ w.now < t ∧ ∀ time, limit = some time → t ≤ time := by
  obtain ⟨member, least⟩ := List.min?_eq_some_iff.mp first
  have later : w.now < t := by
    rcases List.mem_append.mp member with next | bound
    · exact now_lt_nextTime? h quiet (Option.mem_toList.mp next)
    · exact ahead t (Option.mem_toList.mp bound)
  refine ⟨.tick quiet later.le fun time next => ?_, later, fun time bound => ?_⟩
  · exact least time (List.mem_append_left _ (Option.mem_toList.mpr next))
  · exact least time (List.mem_append_right _ (Option.mem_toList.mpr bound))

theorem awaitFrom_passes (h : Reachable w) {stop : World → Bool} {limit : Option Instant}
    {fuel : Nat} (waited : awaitFrom stop limit fuel w = some w') :
    Passes w w' ∧ w'.move? = none := by
  induction fuel generalizing w with
  | zero => cases waited
  | succ fuel ih =>
    unfold awaitFrom at waited
    split at waited
    · rename_i next moved
      obtain ⟨passes, quiet⟩ := ih (h.later (.single (.move moved))) waited
      exact ⟨.head (.move moved) passes, quiet⟩
    · rename_i quiet
      split at waited
      · cases waited
        exact ⟨.refl, quiet⟩
      · rename_i goes_on
        rw [Bool.or_eq_true, not_or] at goes_on
        split at waited
        · cases waited
        · rename_i t first
          obtain ⟨pass, -⟩ := wait_next h quiet (fun time bound => by simpa [bound] using goes_on.2)
            first
          obtain ⟨passes, quiet⟩ := ih (h.later (.single pass.step)) waited
          exact ⟨.head pass passes, quiet⟩

theorem awaitFrom_later (h : Reachable w) {stop : World → Bool} {limit : Option Instant}
    {fuel : Nat} (waited : awaitFrom stop limit fuel w = some w') : Later w w' :=
  (awaitFrom_passes h waited).1.later

theorem seeOff_later (h : Reachable w) {before : World} (waited : seeOff before p w = some w') :
    Later w w' := by
  unfold seeOff at waited
  dsimp only at waited
  split at waited
  · exact awaitFrom_later h waited
  · cases waited
    exact .refl

section Pools

theorem poolFor_error {identity : Identity} {error : PoolError}
    (h : w.poolFor identity = (.error error, w')) : w' = w := by
  unfold poolFor at h
  dsimp only at h
  repeat' split at h
  all_goals cases h
  all_goals rfl

theorem poolFor_later {identity : Identity} {result : Except PoolError PoolId}
    (h : w.poolFor identity = (result, w')) : Later w w' := by
  cases result with
  | ok p =>
    obtain ⟨rfl | ⟨notice, kind, rfl⟩, -⟩ := poolFor_ok h
    · exact .refl
    · exact .tail (.single (.openPool identity)) (.note kind)
  | error error => rw [poolFor_error h]

theorem unregister_later (h : Reachable w) (dropped : w.unregister p = some w') : Later w w' := by
  unfold unregister at dropped
  split at dropped
  · have step : Step w _ := .unregister p
    exact .head step (seeOff_later (h.later (.single step)) dropped)
  · cases dropped
    exact .refl

theorem dropRegistry_later (h : Reachable w) (order : List PoolId)
    (dropped : w.dropRegistry order = some w') : Later w w' := by
  unfold dropRegistry at dropped
  induction order generalizing w with
  | nil =>
    cases dropped
    exact .refl
  | cons p rest ih =>
    rw [List.foldlM_cons] at dropped
    obtain ⟨next, first, others⟩ := Option.bind_eq_some_iff.mp dropped
    have later := unregister_later h first
    exact later.trans (ih (h.later later) others)

end Pools

section Schedulers

theorem shutdown_isShutDown (w : World) (s : SchedulerId) {scheduler : Scheduler}
    (hs : (w.shutdown none s).1.schedulers[s]? = some scheduler) : scheduler.isShutDown = true := by
  cases before : w.schedulers[s]? with
  | none =>
    unfold shutdown at hs
    rw [before, Option.bind_none] at hs
    rw [before] at hs
    cases hs
  | some scheduler' =>
    cases on : scheduler'.pool with
    | none =>
      have off := Scheduler.isShutDown_iff.mpr on
      rw [shutdown_shut none before off, before] at hs
      exact Option.some.inj hs ▸ off
    | some q =>
      obtain ⟨notice, -, shut⟩ := shutdown_open none before on
      rw [shut, release_schedulers, note_schedulers] at hs
      have letGo := (List.getElem?_modify_eq ..).symm.trans hs
      rw [before] at letGo
      cases letGo
      rfl

theorem retire_later (h : Reachable w) {done : Bool} (retired : w.retire s = some (done, w')) :
    Later (w.shutdown none s).1 w' := by
  have shut : Reachable (w.shutdown none s).1 := h.later (.single (.shutdown s))
  unfold retire at retired
  dsimp only at retired
  split at retired
  · cases retired
    exact .refl
  · obtain ⟨after, waited, rest⟩ := Option.bind_eq_some_iff.mp retired
    cases rest
    exact seeOff_later shut waited

/-- A scheduler that is shut down is waited for only if a foreground pool ends with it. -/
theorem retire_waits {scheduler : Scheduler} {done : Bool} (hs : w.schedulers[s]? = some scheduler)
    (retired : w.retire s = some (done, w')) : w' = (w.shutdown none s).1 ∨
      ∃ p pool, scheduler.pool = some p ∧ (w.shutdown none s).1.pools[p]? = some pool ∧
        pool.worker.closing = true ∧ pool.identity.background = false := by
  unfold retire at retired
  dsimp only at retired
  rw [hs, Option.bind_some] at retired
  cases on : scheduler.pool with
  | none =>
    simp only [on, Option.some.injEq, Prod.mk.injEq] at retired
    exact .inl retired.2.symm
  | some p =>
    simp only [on] at retired
    obtain ⟨after, waited, rest⟩ := Option.bind_eq_some_iff.mp retired
    cases rest
    unfold seeOff at waited
    dsimp only at waited
    split at waited
    · rename_i closes
      right
      obtain ⟨pool, hp, ends⟩ := (Option.any_eq_true _ _).mp (Bool.and_eq_true_iff.mp closes).1
      simp only [Bool.and_eq_true, Bool.not_eq_true'] at ends
      exact ⟨p, pool, rfl, hp, ends⟩
    · cases waited
      exact .inl rfl

end Schedulers

section Caches

theorem openCache_error {config : Config} {issuer : Issuer} {error : PoolError}
    (h : w.openCache config issuer = (.error error, w')) : w' = w := by
  unfold openCache at h
  split at h
  · rename_i found
    cases h
    exact poolFor_error found
  · cases h

theorem openCache_later {config : Config} {issuer : Issuer} {result : Except PoolError CacheId}
    (h : w.openCache config issuer = (result, w')) : Later w w' := by
  cases result with
  | ok c => exact .single (.openCache h)
  | error error => rw [openCache_error h]

theorem close_later (h : Reachable w) {cache : Cache} (hc : w.caches[c]? = some cache)
    (closed : w.close c = some w') :
    Later w w' ∧ ∀ scheduler, w'.schedulers[cache.scheduler]? = some scheduler →
      scheduler.isShutDown = true := by
  unfold close at closed
  simp only [hc] at closed
  obtain ⟨⟨done, after⟩, retired, rest⟩ := Option.bind_eq_some_iff.mp closed
  have off : Step w (w.shutdown none cache.scheduler).1 := .shutdown cache.scheduler
  have shut : Reachable (w.shutdown none cache.scheduler).1 := h.later (.single off)
  have noted : Later after w' := by
    cases rest
    dsimp only
    split
    · exact .single (.note rfl)
    · exact .refl
  have later := (retire_later h retired).trans noted
  refine ⟨.head off later, fun scheduler hs => ?_⟩
  obtain ⟨x, shows, rfl⟩ := shut.sound.shows ((congrArg (·[c]?) (w.shutdown_caches _)).trans hc)
  obtain ⟨x', shows', later'⟩ := shows.later shut.sound later
  have before := w.shutdown_isShutDown _ shows.scheduler
  rw [← (Chain.Later.follows later').scheduler, shows'.scheduler] at hs
  exact Option.some.inj hs ▸ (Chain.Later.shut_card later' before).1

theorem dropCache_closes (h : Reachable w) (dropped : w.dropCache c = some w') :
    w' = w ∨ ∃ closed, w.close c = some closed ∧ Later w closed ∧ Step closed w' ∧
      w' = closed.onCache c fun cache => { cache with dropped := true } := by
  obtain ⟨after, closed, rest⟩ := Option.bind_eq_some_iff.mp dropped
  cases rest
  cases hc : w.caches[c]? with
  | none =>
    left
    unfold close at closed
    rw [hc] at closed
    cases closed
    unfold onCache
    rw [List.modify_eq_self (List.getElem?_eq_none_iff.mp hc)]
  | some cache =>
    obtain ⟨later, off⟩ := close_later h hc closed
    obtain ⟨x, shows, rfl⟩ := h.sound.shows hc
    obtain ⟨x', shows', later'⟩ := shows.later h.sound later
    have same := (Chain.Later.follows later').scheduler
    exact .inr ⟨after, closed, later, .dropCache shows'.cache shows'.scheduler
      (off _ (same ▸ shows'.scheduler)), rfl⟩

theorem dropCache_later (h : Reachable w) (dropped : w.dropCache c = some w') : Later w w' := by
  obtain rfl | ⟨closed, -, later, step, -⟩ := dropCache_closes h dropped
  · exact .refl
  · exact .tail later step

end Caches
end TokenKeeper.World
