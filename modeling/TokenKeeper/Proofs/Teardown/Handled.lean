import TokenKeeper.Proofs.Teardown.Elsewhere
import TokenKeeper.Proofs.Teardown.Winding
/-! What a step of a task leaves of the worker's turn. It begins no turn and ends none, puts nobody
at a front without a place in the turn, and wakes nothing once the pool has been torn down. -/
namespace TokenKeeper

structure Worker.Hands (before after : Worker Task) : Prop where
  turns : after.turns = before.turns
  leaving : after.leaving = before.leaving
  streak : after.streak = before.streak
  closing : before.closing = true → after.closing = true
  front : after.front = before.front ∨ before.streak < Worker.maxStreak
  resting : before.closing = true → ∀ r ∈ before.resting, r ∈ after.resting

namespace Worker.Hands

theorem refl (worker : Worker Task) : worker.Hands worker :=
  ⟨rfl, rfl, rfl, id, .inl rfl, fun _ _ => id⟩

theorem trans {first second third : Worker Task} (h : first.Hands second)
    (h' : second.Hands third) : first.Hands third where
  turns := h'.turns.trans h.turns
  leaving := h'.leaving.trans h.leaving
  streak := h'.streak.trans h.streak
  closing := h'.closing ∘ h.closing
  front := by
    rcases h'.front with same | place
    · exact h.front.imp_left same.trans
    · exact .inr (h.streak ▸ place)
  resting := fun closed r rests => h'.resting (h.closing closed) r (h.resting closed r rests)

theorem setStage {before after : Worker Task} (h : before.Hands after) (stage : Stage Task) :
    before.Hands { after with stage := stage } :=
  ⟨h.turns, h.leaving, h.streak, h.closing, h.front, h.resting⟩

theorem push (worker : Worker Task) (task : Task) : worker.Hands (worker.push task) := by
  by_cases place : worker.streak < maxStreak
  · obtain ⟨front, queue, inbox, same⟩ := push_eq worker task
    rw [same]
    exact ⟨rfl, rfl, rfl, id, .inr place, fun _ _ => id⟩
  · obtain ⟨queue, inbox, same⟩ := enqueue_eq worker task
    unfold Worker.push
    rw [if_neg place, same]
    exact ⟨rfl, rfl, rfl, id, .inl rfl, fun _ _ => id⟩

theorem foldl_push (tasks : List Task) (worker : Worker Task) :
    worker.Hands (tasks.foldl Worker.push worker) := by
  induction tasks generalizing worker with
  | nil => exact refl worker
  | cons task rest ih => exact (push worker task).trans (ih _)

theorem rest (worker : Worker Task) (task : Task) (due : Instant) :
    worker.Hands (worker.rest task due) :=
  ⟨rfl, rfl, rfl, id, .inl rfl, fun _ _ rests => List.mem_append_left _ rests⟩

theorem stepAside (worker : Worker Task) (task : Task) : worker.Hands (worker.stepAside task) :=
  ⟨rfl, rfl, rfl, id, .inl rfl, fun _ _ => id⟩

theorem spend (worker : Worker Task) : worker.Hands worker.spend :=
  ⟨rfl, rfl, rfl, id, .inl rfl, fun _ _ => id⟩

theorem close (worker : Worker Task) : worker.Hands { worker with closing := true } :=
  ⟨rfl, rfl, rfl, fun _ => rfl, .inl rfl, fun _ _ => id⟩

theorem rouse {worker : Worker Task} (opened : worker.closing = false) (which : Task → Bool) :
    worker.Hands (worker.rouse true which) := by
  have roused : worker.Hands
      { worker with resting := worker.resting.filter fun r => !which r.2 } :=
    ⟨rfl, rfl, rfl, id, .inl rfl, fun closed => by rw [opened] at closed; cases closed⟩
  exact roused.trans (foldl_push _ _)

theorem frontFits {before after : Worker Task} (h : before.Hands after)
    (fits : before.FrontFits) : after.FrontFits := by
  intro front
  rw [h.streak]
  rcases h.front with same | place
  · exact fits (same ▸ front)
  · exact place

theorem turnsLeft {before after : Worker Task} (h : before.Hands after) :
    after.turnsLeft = before.turnsLeft := turnsLeft_congr h.turns h.leaving

end Worker.Hands

namespace World
variable {w w' : World} {p q : PoolId}

def Handles (w w' : World) (p : PoolId) : Prop :=
  ∀ pool', w'.pools[p]? = some pool' →
    ∃ pool, w.pools[p]? = some pool ∧ pool.worker.Hands pool'.worker

namespace Handles

theorem of_pools (pools : w'.pools = w.pools) : Handles w w' p :=
  fun pool hp => ⟨pool, pools ▸ hp, .refl _⟩

theorem trans {first second third : World} (h : Handles first second p)
    (h' : Handles second third p) : Handles first third p := by
  intro pool'' hp''
  obtain ⟨pool', hp', after⟩ := h' pool'' hp''
  obtain ⟨pool, hp, before⟩ := h pool' hp'
  exact ⟨pool, hp, before.trans after⟩

theorem note (w : World) (notice : Notice) : Handles w (w.note notice) p :=
  of_pools (w.note_pools _)

theorem onPool (w : World) {f : Pool → Pool}
    (each : ∀ pool, w.pools[q]? = some pool → pool.worker.Hands (f pool).worker) :
    Handles w (w.onPool q f) p := by
  intro pool' hp'
  obtain ⟨pool, hp, rfl⟩ := getElem?_modify_cases hp'
  refine ⟨pool, hp, ?_⟩
  split
  · rename_i same
    exact each pool (same ▸ hp)
  · exact .refl _

theorem setStage (h : Handles w w' p) (stage : Worker.Stage Task) :
    Handles w (w'.setStage q stage) p :=
  h.trans (onPool w' fun pool _ => (Worker.Hands.refl pool.worker).setStage stage)

theorem submit (w : World) (p : PoolId) (task : Task) :
    Handles w (w.submit (some p) p task) p := by
  unfold World.submit
  simp only [if_true]
  exact onPool w fun pool _ => .push pool.worker task

theorem release (w : World) (q : PoolId) : Handles w (w.release q) p := by
  rcases w.release_eq q with same | ⟨pool, -, -, closed⟩
  · rw [same]
    exact of_pools rfl
  · rw [closed]
    exact (note w (.poolClosing pool.threads)).trans (onPool _ fun pool _ => .close pool.worker)

theorem waitTill (w : World) (p : PoolId) (due : Instant) (waiting : Task) {next : World → World}
    (goes : ∀ w, Handles w (next w) p) : Handles w (w.waitTill p due waiting next) p := by
  unfold World.waitTill
  split
  · exact of_pools rfl
  · split
    · rw [yield_onWorker fun _ _ => rfl]
      exact (onPool w fun pool _ => Worker.Hands.stepAside pool.worker waiting).setStage _
    · split
      · exact (onPool w fun pool _ => Worker.Hands.spend pool.worker).trans (goes _)
      · rw [yield_onWorker fun _ _ => rfl]
        exact (onPool w fun pool _ => Worker.Hands.rest pool.worker waiting due).setStage _

theorem pauseThen (w : World) (p : PoolId) (pause : Pause) (still : Pause → Task) (next : Task) :
    Handles w (w.pauseThen p pause still next) p := by
  unfold World.pauseThen
  split
  · exact waitTill _ _ _ _ fun w => setStage (of_pools rfl) _
  · exact waitTill _ _ _ _ fun w => setStage (of_pools rfl) _
  · split <;> exact setStage (of_pools rfl) _

theorem enter (w : World) (p : PoolId) (submission : Submission) :
    Handles w (w.enter p submission) p := by
  unfold World.enter
  split
  · exact setStage (of_pools rfl) _
  · dsimp only
    split
    · exact setStage (of_pools rfl) _
    · split
      · exact setStage (of_pools (note_pools ..)) _
      · refine setStage (trans ?_ (submit _ p _)) _
        exact of_pools (note_pools ..)

theorem awaitDelay (w : World) (p : PoolId) (submission : Submission) (due : Instant) :
    Handles w (w.awaitDelay p submission due) p := by
  unfold World.awaitDelay
  split
  · exact setStage (of_pools (note_pools ..)) _
  · exact waitTill w p due _ fun w => enter w p submission

end Handles

section Asking
variable {s : SchedulerId}

theorem Requested.handles (asked : Requested w (some p) s w')
    (home : ∀ scheduler q, w.schedulers[s]? = some scheduler → scheduler.pool = some q → q = p) :
    Handles w w' p := by
  cases asked with
  | unknown => exact .of_pools rfl
  | vain notice => exact .note w notice
  | @accepted scheduler q hs on task =>
    obtain rfl := home scheduler q hs on
    exact (Handles.submit w q task).trans (.of_pools (note_pools ..))

theorem Sound.shutdown_handles (h : w.Sound)
    (home : ∀ scheduler q, w.schedulers[s]? = some scheduler → scheduler.pool = some q → q = p) :
    Handles w (w.shutdown (some p) s).1 p := by
  rcases w.shutdown_cases (some p) s with same | ⟨scheduler, q, hs, on, notice, -, shut⟩
  · rw [same]
    exact .of_pools rfl
  · obtain rfl := home scheduler q hs on
    have called : Handles w (w.callOff (some q) s q) q := by
      unfold callOff
      rw [beq_self_eq_true]
      refine .onPool (w.onScheduler s (·.letGo)) fun pool hp => ?_
      exact .rouse (h.open_of_scheduler hs on hp) _
    rw [shut]
    exact (called.trans (.note _ notice)).trans (.release _ q)

end Asking

theorem Sound.carryOn_handles (h : w.Sound) {pool : Pool} {task : Task}
    (hp : w.pools[p]? = some pool) (stage : pool.worker.stage = .busy task) :
    Handles w (w.carryOn p task) p := by
  have ⟨fits, home⟩ := h.tasks p pool hp task (by rw [Worker.tasks_busy stage]; simp)
  have yields {w' : World} (goes : Handles w w' p) : Handles w (w'.yield p) p := goes.setStage _
  have same : Handles w w p := .of_pools rfl
  cases task with
  | begin submission => exact .enter w p submission
  | delayed submission delay => exact .awaitDelay w p submission _
  | pending submission due => exact .awaitDelay w p submission due
  | script run actions =>
    obtain ⟨scheduler, -, hs, -⟩ := fits
    have here := fun scheduler q => home run.scheduler scheduler q rfl
    have unlessDropped {f : World → World} (goes : Handles w (f w) p) (next : Task) :
        Handles w ((w.unlessDropped run.scheduler f).goOn p next) p := by
      rw [unlessDropped_eq hs]
      split
      · exact same.setStage _
      · exact goes.setStage _
    cases actions with
    | nil => exact yields (.of_pools rfl)
    | cons action rest => cases action with
      | pause pause => exact .pauseThen _ _ _ _ _
      | panic => exact yields (.of_pools rfl)
      | schedule delay =>
        exact unlessDropped ((schedule_requested w (some p) _ delay).handles here) _
      | start => exact unlessDropped ((start_requested w (some p) _).handles here) _
      | shutdown => exact unlessDropped (h.shutdown_handles here) _
  | fetch run c =>
    change Handles w (w.callIssuer p run c) p
    unfold callIssuer
    split
    · exact yields same
    · exact Handles.setStage (.of_pools rfl) _
  | call run c pauses reply =>
    cases pauses with
    | nil =>
      refine yields (Handles.trans ?_ (.submit _ p _))
      exact .of_pools rfl
    | cons pause rest => exact .pauseThen _ _ _ _ _
  | conclude run c reply =>
    obtain ⟨scheduler, cache, hs, -, hc, mine⟩ := fits
    obtain ⟨notice, -, goes⟩ := conclude_eq p reply hc mine
    change Handles w (w.conclude p run c reply) p
    rw [goes]
    have same : (w.settled c cache.config reply notice).schedulers = w.schedulers := by
      simp only [World.settled, World.onCache, note_schedulers]
    have asked := (schedule_requested (w.settled c cache.config reply notice) (some p)
      run.scheduler (cache.config.delayAfter reply)).handles fun scheduler q hs =>
        home run.scheduler scheduler q rfl (same ▸ hs)
    have before : Handles w (w.settled c cache.config reply notice) p :=
      .of_pools (note_pools ..)
    exact yields ((before.trans asked).trans (.of_pools (note_pools ..)))
  | inquiry => exact yields (.onPool w fun pool _ => .refl pool.worker)
  | guest pauses =>
    cases pauses with
    | nil => exact yields same
    | cons pause rest => exact .pauseThen _ _ _ _ _

end World
end TokenKeeper
