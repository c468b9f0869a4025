import TokenKeeper.Proofs.Chain.Sound
/-! An open cache always has exactly one run, and its calls never overlap. After it has been closed
the run comes to an end, and begins no more if it was waiting. -/
namespace TokenKeeper

/-- Whether it is a run that waits for its delay, begun or not. -/
def Task.isWaiting : Task → Bool
  | delayed .. | pending .. => true
  | _ => false

theorem Task.Begins.on {now : Instant} {off : Bool} {task : Task} {submission : Submission}
    (h : task.Begins now off submission) (waits : task.isWaiting = true) : off = false := by
  cases h with
  | atOnce => cases waits
  | waited _ on => exact on

section Calls
variable {exact : Prop} {start : Instant} {config : Config} {issuer : Issuer}

theorem Timed.ended {attempts : List Attempt} (h : Timed exact start config issuer attempts)
    {due : Instant} (next : nextCall? config start attempts = some due) :
    ∀ attempt ∈ attempts, ∃ time reply, attempt.ended = some (time, reply) ∧ time ≤ due := by
  induction attempts generalizing due with
  | nil => nofun
  | cons latest earlier ih =>
    obtain ⟨⟨due', next', on_time⟩, regular, timed⟩ := h
    obtain ⟨ended, reply, -, he, -, rfl⟩ := Attempt.nextAt?_some next
    have le := ended.le_afterRest (config.delayAfter reply)
    intro attempt ha
    obtain rfl | old := List.mem_cons.mp ha
    · exact ⟨ended, reply, he, le⟩
    · obtain ⟨time, reply', he', le'⟩ := ih timed next' attempt old
      have began := (regular.ended ended reply he).1
      exact ⟨time, reply', he', ((le'.trans on_time.early).trans began).trans le⟩

theorem Timed.pairwise {attempts : List Attempt} (h : Timed exact start config issuer attempts) :
    attempts.Pairwise fun later earlier =>
      ∃ time reply, earlier.ended = some (time, reply) ∧ time ≤ later.began := by
  induction attempts with
  | nil => exact .nil
  | cons latest earlier ih =>
    obtain ⟨⟨due, next, on_time⟩, -, timed⟩ := h
    refine .cons (fun attempt ha => ?_) (ih timed)
    obtain ⟨time, reply, he, le⟩ := timed.ended next attempt ha
    exact ⟨time, reply, he, le.trans on_time.early⟩

end Calls

namespace Chain
variable {held : Prop} {x x' : Chain}

theorem Step.shut_card (step : Chain.Step held x x') (off : x.scheduler.isShutDown = true) :
    x'.scheduler.isShutDown = true ∧ x'.live.card ≤ x.live.card := by
  cases step with
  | tick => exact ⟨off, le_rfl⟩
  | turn live turn =>
    refine ⟨turn.isShutDown.trans off, ?_⟩
    rw [live, Multiset.card_add, Multiset.card_add, Multiset.card_singleton]
    exact Nat.add_le_add_right turn.card.1 _
  | lose _ le => exact ⟨off, Multiset.card_le_card le⟩
  | shut => exact ⟨rfl, le_rfl⟩
  | drop => exact ⟨off, le_rfl⟩

theorem Later.shut_card (later : Chain.Later held x x') (off : x.scheduler.isShutDown = true) :
    x'.scheduler.isShutDown = true ∧ x'.live.card ≤ x.live.card := by
  induction later with
  | refl => exact ⟨off, le_rfl⟩
  | tail _ step ih =>
    obtain ⟨off', less⟩ := step.shut_card ih.1
    exact ⟨off', less.trans ih.2⟩

theorem Step.shut_waiting (step : Chain.Step held x x') (off : x.scheduler.isShutDown = true)
    (waiting : ∀ task ∈ x.live, task.isWaiting = true) :
    (∀ task ∈ x'.live, task.isWaiting = true) ∧ x'.scheduler.runs = x.scheduler.runs := by
  cases step with
  | tick => exact ⟨waiting, rfl⟩
  | @turn task added rest scheduler cache live turn =>
    rw [live] at waiting
    have waits := waiting task (by simp)
    have others : ∀ task ∈ rest, task.isWaiting = true :=
      fun task ht => waiting task (Multiset.mem_add.mpr (.inr ht))
    cases turn with
    | abandon =>
      refine ⟨fun task ht => others task ?_, rfl⟩
      rwa [zero_add] at ht
    | wait _ on => cases off.symm.trans on
    | enter begins | enterDropped begins => cases off.symm.trans (begins.on waits)
    | _ => cases waits
  | lose _ le => exact ⟨fun task ht => waiting task (Multiset.mem_of_le le ht), rfl⟩
  | shut => exact ⟨waiting, rfl⟩
  | drop => exact ⟨waiting, rfl⟩

theorem Later.shut_waiting (later : Chain.Later held x x') (off : x.scheduler.isShutDown = true)
    (waiting : ∀ task ∈ x.live, task.isWaiting = true) :
    (∀ task ∈ x'.live, task.isWaiting = true) ∧ x'.scheduler.runs = x.scheduler.runs := by
  induction later with
  | refl => exact ⟨waiting, rfl⟩
  | tail before step ih =>
    obtain ⟨waiting', same⟩ := step.shut_waiting (Later.shut_card before off).1 ih.1
    exact ⟨waiting', same.trans ih.2⟩

end Chain

namespace World
variable {w : World} {c : CacheId} {cache : Cache} {scheduler : Scheduler}

/-- An open cache has exactly one live run, whose calls come one after the other. A closed or
dropped one has at most one, never more again, and no run of it that waits begins. -/
theorem one_live_run (h : Reachable w) (hc : w.caches[c]? = some cache)
    (hs : w.schedulers[cache.scheduler]? = some scheduler) :
    (scheduler.isShutDown = false ∧ cache.dropped = false → (w.live cache.scheduler).card = 1) ∧
      (scheduler.isShutDown = true ∨ cache.dropped = true → (w.live cache.scheduler).card ≤ 1 ∧
        ∀ w', Later w w' → (w'.live cache.scheduler).card ≤ (w.live cache.scheduler).card ∧
          ∀ task ∈ w.live cache.scheduler, task.isWaiting = true →
            w'.schedulers[cache.scheduler]?.map (·.runs) = some scheduler.runs) ∧
      (cache.intervals.Pairwise fun first second =>
        ∃ time, first.2 = some time ∧ time ≤ second.1) ∧
      ∀ interval ∈ cache.intervals, ∀ time, interval.2 = some time → interval.1 ≤ time := by
  obtain ⟨x, shows, rfl⟩ := h.sound.shows hc
  obtain rfl := Option.some.inj (shows.scheduler.symm.trans hs)
  obtain ⟨start, sound⟩ := shows.sound h
  rw [← shows.live]
  refine ⟨fun open' => sound.alive open'.1, fun closed => ?_, ?_, ?_⟩
  · have off : x.scheduler.isShutDown = true := closed.elim id sound.dropped
    refine ⟨sound.sole, fun w' later => ?_⟩
    obtain ⟨x', shows', later'⟩ := shows.later h.sound later
    have same : x'.cache.scheduler = x.cache.scheduler := (Chain.Later.follows later').scheduler
    rw [← same, ← shows'.live]
    refine ⟨(Chain.Later.shut_card later' off).2, fun task ht waits => ?_⟩
    rw [shows'.scheduler, Option.map_some]
    refine congrArg some (Chain.Later.shut_waiting later' off fun other ho => ?_).2
    -- The run that waits is the only one.
    have alone : x.live = {task} := by
      obtain ⟨rest, split⟩ := Multiset.exists_cons_of_mem ht
      have card := sound.sole
      rw [split, Multiset.card_cons] at card
      rw [split, Multiset.card_eq_zero.mp (by omega : rest.card = 0)]
      rfl
    rw [alone, Multiset.mem_singleton] at ho
    rwa [ho]
  · unfold Cache.intervals
    rw [List.pairwise_map, List.pairwise_reverse]
    refine sound.timed.pairwise.imp fun ⟨time, reply, he, le⟩ => ⟨time, ?_, le⟩
    rw [he]
    rfl
  · intro interval hi time ended
    obtain ⟨attempt, ha, rfl⟩ := List.mem_map.mp hi
    obtain ⟨⟨time', reply⟩, he, rfl⟩ := Option.map_eq_some_iff.mp ended
    obtain ⟨k, hk⟩ := List.mem_iff_getElem?.mp ha
    exact ((sound.timed.regular hk).ended time' reply he).1

/-- Open after its second call, the cache has one run, which never begins once it is shut down. -/
theorem one_live_run_solo : ∃ cache scheduler, refreshed.caches[0]? = some cache ∧
    refreshed.schedulers[cache.scheduler]? = some scheduler ∧ cache.attempts.length = 2 ∧
    (refreshed.live cache.scheduler).card = 1 ∧
    ∀ w', Later (refreshed.shutdown none 0).1 w' →
      (w'.live 0).card ≤ 1 ∧ w'.schedulers[0]?.map (·.runs.length) = some 2 := by
  have seen : refreshed.caches[0]?.map (fun cache =>
      (cache.scheduler, cache.dropped, cache.attempts.length)) = some (0, false, 2) := by
    decide +kernel
  have runs : refreshed.schedulers[0]?.map (·.isShutDown) = some false := by decide +kernel
  let closed := (refreshed.shutdown none 0).1
  have reached : Reachable closed := reachable_refreshed.later (.single (.shutdown 0))
  have own : closed.caches[0]?.map (·.scheduler) = some 0 := by decide +kernel
  have off : closed.schedulers[0]?.map (fun scheduler =>
      (scheduler.isShutDown, scheduler.runs.length)) = some (true, 2) := by decide +kernel
  have waits : (closed.live 0).countP (·.isWaiting) = 1 := by decide +kernel
  obtain ⟨cache, hc, seen⟩ := Option.map_eq_some_iff.mp seen
  rw [Prod.mk.injEq, Prod.mk.injEq] at seen
  obtain ⟨scheduler, hs, on⟩ := Option.map_eq_some_iff.mp runs
  obtain ⟨cache₁, hc₁, same⟩ := Option.map_eq_some_iff.mp own
  obtain ⟨scheduler₁, hs₁, off⟩ := Option.map_eq_some_iff.mp off
  rw [Prod.mk.injEq] at off
  obtain ⟨task, ht, waits⟩ := Multiset.countP_pos.mp (waits.trans_gt one_pos)
  refine ⟨cache, scheduler, hc, seen.1 ▸ hs, seen.2.2, ?_, fun w' later => ?_⟩
  · exact (one_live_run reachable_refreshed hc (seen.1 ▸ hs)).1 ⟨on, seen.2.1⟩
  · obtain ⟨-, after, -⟩ := one_live_run reached hc₁ (same ▸ hs₁)
    rw [same] at after
    obtain ⟨one, never⟩ := after (.inl off.1)
    obtain ⟨less, unbegun⟩ := never w' later
    obtain ⟨scheduler', hs', runs⟩ := Option.map_eq_some_iff.mp (unbegun task ht waits)
    exact ⟨less.trans one, by rw [hs', Option.map_some, runs, off.2]⟩

end World
end TokenKeeper
