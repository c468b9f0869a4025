import TokenKeeper.Proofs.World.Turn
/-! What a worker is left at when the step of a task is over. Only a pause that holds it leaves it
held. -/
namespace TokenKeeper

structure Worker.Leaves (now : Instant) (task : Task) (before after : Worker Task) : Prop where
  free : ∀ next t, after.stage = .held next t →
    ∃ length still, task.pausing? = some (.hold length, still, next) ∧ t = now + length
  holds : ∀ length still next, task.pausing? = some (.hold length, still, next) → length ≠ 0 →
    after.stage = .held next (now + length)

/-- A pool that was open is open still, or nothing holds it any more. -/
theorem Pool.Carries.closes {before after : Pool} {added : Multiset Task} {free : Prop}
    (h : before.Carries after added)
    (closing : after.worker.closing = before.worker.closing ∨ free) :
    after.worker.closing = before.worker.closing ∨ after.worker.closing = true ∧ free := by
  cases closed : after.worker.closing with
  | true => exact (closed ▸ closing).imp_right fun free => ⟨rfl, free⟩
  | false =>
    left
    by_contra was
    rw [h.closing (by simpa using Ne.symm was)] at closed
    cases closed

namespace Worker
variable {worker : Worker Task} {now : Instant}

theorem wake_not_held (worker : Worker Task) (now : Instant) (task : Task) (t : Instant) :
    (worker.wake now).stage ≠ .held task t := by
  unfold wake
  split
  · nofun
  · dsimp only
    split <;> nofun

theorem advance_not_held (worker : Worker Task) (now : Instant) (task : Task) (t : Instant) :
    (worker.advance now).stage ≠ .held task t := by
  unfold advance
  split
  · split
    · nofun
    · obtain ⟨inboxFirst, turn⟩ := turn_eq worker now
      rw [turn]
      split
      · nofun
      · unfold relax
        dsimp only
        split
        · exact wake_not_held _ now task t
        · nofun
  · unfold follow
    split
    · nofun
    · dsimp only
      split <;> nofun
  · exact wake_not_held worker now task t
  · nofun
  · rename_i stage
    rw [stage]
    nofun
  · rename_i stage
    rw [stage]
    nofun

theorem advance_others (left : Left worker.closing (worker.advance now).tasks worker.tasks) :
    (worker.advance now).others ≤ worker.others := by
  have le : (worker.advance now).others ≤ worker.stage.tasks + worker.others :=
    (Multiset.le_add_left _ _).trans left.le
  cases stage : worker.stage with
  | free | idle | between | gone => simpa [stage, Stage.tasks] using le
  | busy task =>
    have same : worker.advance now = worker := by simp [advance, stage]
    exact (congrArg others same).le
  | held task t =>
    exact (congrArg others (show worker.advance now = { worker with stage := .busy task } by
      simp [advance, stage])).le

end Worker

namespace World
variable {w w' : World} {p : PoolId} {pool pool' : Pool} {task : Task}

theorem setStage_stage {stage : Worker.Stage Task}
    (hp : (w.setStage p stage).pools[p]? = some pool) : pool.worker.stage = stage := by
  obtain ⟨_, -, rfl⟩ := Option.map_eq_some_iff.mp ((List.getElem?_modify_eq ..).symm.trans hp)
  rfl

/-- The turn is over, or goes on with a task. -/
def Settles (w' : World) (p : PoolId) : Prop :=
  ∃ middle : World, w' = middle.yield p ∨ ∃ next, w' = middle.goOn p next

theorem Settles.not_held (settles : w'.Settles p) (hp : w'.pools[p]? = some pool) (next : Task)
    (t : Instant) : pool.worker.stage ≠ .held next t := by
  intro stage
  obtain ⟨middle, rfl | ⟨next, rfl⟩⟩ := settles <;> rw [setStage_stage hp] at stage <;> cases stage

theorem waitTill_settles (hp : w.pools[p]? = some pool) (due : Instant) (waiting : Task)
    (next : World → World) (goes : ∀ w : World, (next w).Settles p) :
    (w.waitTill p due waiting next).Settles p := by
  unfold waitTill
  rw [hp]
  dsimp only
  split
  · rw [yield_onWorker fun _ _ => rfl]
    exact ⟨_, .inl rfl⟩
  · split
    · exact goes _
    · rw [yield_onWorker fun _ _ => rfl]
      exact ⟨_, .inl rfl⟩

theorem enter_settles (w : World) (p : PoolId) (submission : Submission) :
    (w.enter p submission).Settles p := by
  unfold enter
  split
  · exact ⟨_, .inl rfl⟩
  · dsimp only
    split
    · exact ⟨_, .inr ⟨_, rfl⟩⟩
    · split <;> exact ⟨_, .inl rfl⟩

theorem carryOn_pausing {pause : Pause} {still : Pause → Task} {next : Task}
    (h : task.pausing? = some (pause, still, next)) :
    w.carryOn p task = w.pauseThen p pause still next := by
  unfold Task.pausing? at h
  split at h <;> cases h <;> rfl

theorem carryOn_settles (hp : w.pools[p]? = some pool) (goes : task.pausing? = none) :
    (w.carryOn p task).Settles p := by
  have yields (w' : World) : (w'.yield p).Settles p := ⟨w', .inl rfl⟩
  have goesOn (w' : World) (next : Task) : (w'.goOn p next).Settles p := ⟨w', .inr ⟨next, rfl⟩⟩
  have awaits (submission : Submission) (due : Instant) :
      (w.awaitDelay p submission due).Settles p := by
    unfold awaitDelay
    split
    · exact yields _
    · exact waitTill_settles hp due _ _ fun w => w.enter_settles p submission
  cases task with
  | begin submission => exact w.enter_settles p submission
  | delayed submission delay => exact awaits submission _
  | pending submission due => exact awaits submission due
  | script run actions =>
    cases actions with
    | nil => exact yields _
    | cons action rest => cases action with
      | pause => cases goes
      | schedule | start | shutdown => exact goesOn _ _
      | panic => exact yields _
  | fetch run c =>
    change (w.callIssuer p run c).Settles p
    unfold callIssuer
    split
    · exact yields _
    · exact goesOn _ _
  | call run c pauses reply =>
    cases pauses with
    | nil => exact yields _
    | cons => cases goes
  | conclude run c reply =>
    change (w.conclude p run c reply).Settles p
    unfold conclude
    split <;> exact yields _
  | inquiry => exact yields _
  | guest pauses =>
    cases pauses with
    | nil => exact yields _
    | cons => cases goes

theorem pausing_leaves (hp : w.pools[p]? = some pool)
    (hp' : (w.carryOn p task).pools[p]? = some pool') {pause : Pause} {still : Pause → Task}
    {next : Task} (goes : task.pausing? = some (pause, still, next)) :
    pool.worker.Leaves w.now task pool'.worker := by
  have tillDue {due : Instant} (is : w.pauseThen p pause still next =
      w.waitTill p due (still (.till due)) (·.goOn p next))
      (other : ∀ length, pause ≠ .hold length) :
      pool.worker.Leaves w.now task pool'.worker := by
    rw [carryOn_pausing goes, is] at hp'
    have settles := waitTill_settles hp due (still (.till due)) (·.goOn p next)
      fun w => ⟨w, .inr ⟨next, rfl⟩⟩
    have unheld := settles.not_held hp'
    refine ⟨fun next t stage => absurd stage (unheld next t), fun _ _ _ same => ?_⟩
    cases goes.symm.trans same
    exact absurd rfl (other _)
  cases pause with
  | rest length => exact tillDue rfl nofun
  | till due => exact tillDue rfl nofun
  | hold length =>
    rw [carryOn_pausing goes] at hp'
    unfold pauseThen at hp'
    dsimp only at hp'
    split at hp'
    · rename_i nothing
      have stage := setStage_stage hp'
      refine ⟨fun _ _ held => ?_, fun _ _ _ same positive => ?_⟩
      · cases stage.symm.trans held
      · cases goes.symm.trans same
        exact absurd nothing positive
    · have stage := setStage_stage hp'
      refine ⟨fun _ _ held => ?_, fun _ _ _ same _ => ?_⟩
      · cases stage.symm.trans held
        exact ⟨length, still, goes, rfl⟩
      · cases goes.symm.trans same
        exact stage

theorem carryOn_leaves (hp : w.pools[p]? = some pool)
    (hp' : (w.carryOn p task).pools[p]? = some pool') :
    pool.worker.Leaves w.now task pool'.worker := by
  cases goes : task.pausing? with
  | some paused => exact pausing_leaves hp hp' goes
  | none =>
    have unheld := (carryOn_settles hp goes).not_held hp'
    refine ⟨fun next t stage => absurd stage (unheld next t), fun _ _ _ same => ?_⟩
    cases goes.symm.trans same

end World
end TokenKeeper
