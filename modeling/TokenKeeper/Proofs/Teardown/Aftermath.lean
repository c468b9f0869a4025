import TokenKeeper.Proofs.Teardown.Handled
/-! What a pool's worker still does when the pool has been torn down. It takes up a few more tasks
at most, wakes what rests only where it looks, and when the clock moves on it is gone or held. -/
namespace TokenKeeper

/-- One step of a closing worker, or of something else. -/
structure Worker.Winds (now : Instant) (before after : Worker Task) : Prop where
  tasksLeft : after.tasksLeft + (after.stage.tasks.card - before.stage.tasks.card) ≤
    before.tasksLeft
  resting : ∀ r ∈ before.resting, r ∈ after.resting ∨ after.stage = .gone ∨
    r.1 ≤ now ∧ before.Looks
  idle : before.stage = .idle → after.stage = .idle ∨ after.stage = .gone
  gone : before.stage = .gone → after.stage = .gone

namespace Worker
variable {worker : Worker Task} {now : Instant}

theorem Winds.refl (now : Instant) (worker : Worker Task) : Winds now worker worker :=
  ⟨by simp, fun _ rests => .inl rests, .inl, id⟩

theorem Winds.advance (settled : worker.Settled) (fits : worker.FrontFits)
    (closing : worker.closing = true) : Winds now worker (worker.advance now) := by
  refine ⟨advance_tasksLeft settled fits closing, fun r => advance_resting closing, fun idle => ?_,
    fun gone => ?_⟩
  · right
    unfold Worker.advance
    rw [idle]
    dsimp only
    rw [wake_closing closing]
    rfl
  · unfold Worker.advance
    rw [gone]
    exact gone

theorem Stage.tasks_card_le (stage : Stage α) : stage.tasks.card ≤ 1 := by
  cases stage <;> simp [Stage.tasks]

theorem Hands.winds {after : Worker Task} (hands : worker.Hands after) {task : Task}
    (stage : worker.stage = .busy task) (active : after.stage.isActive = true)
    (closing : worker.closing = true) : Winds now worker after := by
  refine ⟨?_, fun r rests => .inl (hands.resting closing r rests), fun idle => ?_, fun gone => ?_⟩
  · have before : worker.stage.isActive = true := by rw [stage]; rfl
    have one : worker.stage.tasks.card = 1 := by rw [stage]; rfl
    have more := after.stage.tasks_card_le
    rw [tasksLeft_active active, tasksLeft_active before, hands.turnsLeft, hands.streak, one]
    omega
  · rw [stage] at idle
    cases idle
  · rw [stage] at gone
    cases gone

end Worker

namespace World
variable {w w' : World} {p : PoolId} {pool : Pool}

theorem Reachable.frontFits (h : Reachable w) (hp : w.pools[p]? = some pool) :
    pool.worker.FrontFits := by
  obtain ⟨now, verbosity, later⟩ := h
  induction later generalizing pool with
  | refl => exact nomatch hp
  | @tail w w' before step ih =>
    have sound := Reachable.sound ⟨now, verbosity, before⟩
    rcases step.reaches sound p with ⟨pool₀, hp₀, rfl⟩ | reaches
    · have fits := ih hp₀
      unfold World.work at hp
      simp only [hp₀] at hp
      split at hp
      · rename_i task stage
        obtain ⟨pool', hp', hands⟩ := sound.carryOn_handles hp₀ stage pool hp
        obtain rfl := Option.some.inj (hp₀.symm.trans hp')
        exact hands.frontFits fits
      · obtain ⟨_, hp', rfl⟩ := Option.map_eq_some_iff.mp
          ((List.getElem?_modify_eq ..).symm.trans hp)
        obtain rfl := Option.some.inj (hp₀.symm.trans hp')
        exact Worker.advance_frontFits (sound.workers _ (List.mem_of_getElem? hp₀)).settled fits
    · rcases reaches pool hp with ⟨-, -, front⟩ | ⟨pool₀, hp₀, reached⟩
      · exact .of_empty front
      · obtain ⟨inbox, resting, closing, same⟩ := reached.same
        rw [same]
        exact ih hp₀

theorem Reachable.work_winds (h : Reachable w) (hp : w.pools[p]? = some pool)
    (closing : pool.worker.closing = true) : ∃ pool', (w.work p).pools[p]? = some pool' ∧
      pool.worker.Winds w.now pool'.worker := by
  have settled := (h.sound.workers pool (List.mem_of_getElem? hp)).settled
  rcases h.sound.work_cases hp with ⟨task, stage, -, _, turned, -⟩ | own
  · obtain ⟨f, pools, carries⟩ := turned.pools
    have after : (w.work p).pools[p]? = some (f pool) := by
      rw [pools, List.getElem?_modify_eq, hp]
      rfl
    refine ⟨f pool, after, ?_⟩
    have goes : w.work p = w.carryOn p task := by
      unfold World.work
      simp only [hp, stage]
    obtain ⟨pool', hp', hands⟩ := h.sound.carryOn_handles hp stage (f pool) (goes ▸ after)
    obtain rfl := Option.some.inj (hp.symm.trans hp')
    exact hands.winds stage (carries pool hp).1.active closing
  · rw [own]
    refine ⟨_, (List.getElem?_modify_eq ..).trans (congrArg (Option.map _) hp), ?_⟩
    exact .advance settled (h.frontFits hp) closing

theorem Step.winds (h : Reachable w) (step : Step w w') (hp : w.pools[p]? = some pool)
    (closing : pool.worker.closing = true) : ∃ pool', w'.pools[p]? = some pool' ∧
      pool'.worker.closing = true ∧ pool.worker.Winds w.now pool'.worker := by
  obtain ⟨pool', hp', follows⟩ := step.poolsFollow h.sound p pool hp
  refine ⟨pool', hp', follows.closing closing, ?_⟩
  rcases step.left_alone h.sound hp closing with rfl | same
  · obtain ⟨after, there, winds⟩ := h.work_winds hp closing
    exact Option.some.inj (there.symm.trans hp') ▸ winds
  · rw [hp', Option.map_some] at same
    exact Option.some.inj same ▸ .refl _ _

def atHand (w : World) (p : PoolId) : Nat :=
  (w.pools[p]?.map fun pool => pool.worker.stage.tasks.card).getD 0

/-- Steps in which the worker of the pool takes up so many tasks. -/
inductive TakesOn (p : PoolId) : Nat → World → World → Prop where
  | refl (w : World) : TakesOn p 0 w w
  | tail {n w w' w''} (before : TakesOn p n w w') (step : Step w' w'') :
      TakesOn p (n + (w''.atHand p - w'.atHand p)) w w''

theorem TakesOn.later {n : Nat} (takes : TakesOn p n w w') : Later w w' := by
  induction takes with
  | refl => exact .refl
  | tail _ step ih => exact ih.tail step

theorem Later.takesOn (later : Later w w') (p : PoolId) : ∃ n, TakesOn p n w w' := by
  induction later with
  | refl => exact ⟨0, .refl w⟩
  | tail _ step ih =>
    obtain ⟨n, takes⟩ := ih
    exact ⟨_, takes.tail step⟩

theorem TakesOn.tasksLeft {n : Nat} (takes : TakesOn p n w w') (h : Reachable w)
    (hp : w.pools[p]? = some pool) (closing : pool.worker.closing = true) :
    ∃ pool', w'.pools[p]? = some pool' ∧ pool'.worker.closing = true ∧
      n + pool'.worker.tasksLeft ≤ pool.worker.tasksLeft := by
  induction takes with
  | refl => exact ⟨pool, hp, closing, (Nat.zero_add _).le⟩
  | tail before step ih =>
    obtain ⟨pool', hp', closing', left⟩ := ih h hp
    obtain ⟨pool'', hp'', closing'', winds⟩ := step.winds (h.later before.later) hp' closing'
    refine ⟨pool'', hp'', closing'', ?_⟩
    have used := winds.tasksLeft
    simp only [atHand, hp', hp'', Option.map_some, Option.getD_some]
    omega

theorem Later.winds (keeps : Worker.Stage Task → Prop) (h : Reachable w)
    (hp : w.pools[p]? = some pool) (closing : pool.worker.closing = true)
    (kept : ∀ now before after, Worker.Winds now before after → keeps before.stage →
      keeps after.stage) (here : keeps pool.worker.stage) (later : Later w w') :
    ∃ pool', w'.pools[p]? = some pool' ∧ pool'.worker.closing = true ∧
      keeps pool'.worker.stage := by
  induction later with
  | refl => exact ⟨pool, hp, closing, here⟩
  | tail before step ih =>
    obtain ⟨pool', hp', closing', there⟩ := ih
    obtain ⟨pool'', hp'', closing'', winds⟩ := step.winds (h.later before) hp' closing'
    exact ⟨pool'', hp'', closing'', kept _ _ _ winds there⟩

/-- A worker whose pool has been torn down has something to do unless it is gone or held. -/
theorem quiet_gone_or_held {worker : Worker Task} {now : Instant} (closing : worker.closing = true)
    (quiet : worker.isReady now = false) :
    worker.stage = .gone ∨ ∃ task free, worker.stage = .held task free := by
  unfold Worker.isReady at quiet
  cases stage : worker.stage with
  | free | between | busy =>
    rw [stage] at quiet
    cases quiet
  | idle => simp [stage, closing] at quiet
  | held task free => exact .inr ⟨task, free, rfl⟩
  | gone => exact .inl rfl

end World
end TokenKeeper
