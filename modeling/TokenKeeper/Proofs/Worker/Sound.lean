import TokenKeeper.Pool.Task
import TokenKeeper.Proofs.Worker.Tasks
/-! What holds of a worker at any time. A step of its own loses no task unless it closes, and when
it has nothing left to do, nothing stands at its front, in its queue or aside. -/
namespace TokenKeeper

def Task.due? : Task → Option Instant
  | pending _ due => some due
  | script _ (.pause (.till due) :: _) => some due
  | call _ _ (.till due :: _) _ => some due
  | guest (.till due :: _) => some due
  | _ => none

namespace Worker

def Stage.isActive : Stage α → Bool
  | .busy _ | .held .. | .between => true
  | .free | .idle | .gone => false

/-- What the stage says about the tasks. -/
structure Settled (worker : Worker α) : Prop where
  gone : worker.stage = .gone → worker.closing = true ∧ worker.others = 0
  idle : worker.stage = .idle → worker.front = none ∧ worker.queue = [] ∧ worker.aside = []
  streak : worker.stage = .free ∨ worker.stage = .idle → worker.streak = 0

theorem Settled.of_active {worker : Worker α} (h : worker.stage.isActive = true) :
    worker.Settled := by
  constructor <;> intro stage
  · simp [stage, Stage.isActive] at h
  · simp [stage, Stage.isActive] at h
  · obtain stage | stage := stage <;> simp [stage, Stage.isActive] at h

structure Sound (worker : Worker Task) (now : Instant) : Prop where
  settled : worker.Settled
  looked : worker.looked ≤ now
  leaving : worker.leaving = true → worker.closing = true
  due : ∀ r ∈ worker.resting, r.2.due? = some r.1

structure Keeps (now : Instant) (before after : Worker α) : Prop where
  closing : after.closing = before.closing
  leaving : after.leaving = true → before.leaving = true ∨ before.closing = true
  looked : after.looked = before.looked ∨ after.looked = now
  resting : ∀ r ∈ after.resting, r ∈ before.resting
  tasks : Left before.closing after.tasks before.tasks

namespace Keeps

theorem refl (now : Instant) (worker : Worker α) : Keeps now worker worker :=
  ⟨rfl, .inl, .inl rfl, fun _ h => h, .refl _ _⟩

theorem trans {now : Instant} {first second third : Worker α} (h : Keeps now first second)
    (h' : Keeps now second third) : Keeps now first third where
  closing := h'.closing.trans h.closing
  leaving := fun left => by
    obtain left | closing := h'.leaving left
    · exact h.leaving left
    · exact .inr (h.closing ▸ closing)
  looked := by
    obtain same | look := h'.looked
    · rw [same]
      exact h.looked
    · exact .inr look
  resting := fun r hr => h.resting r (h'.resting r hr)
  tasks := (h.closing ▸ h'.tasks).trans h.tasks

theorem look (worker : Worker α) (now : Instant) : Keeps now worker (worker.look now) := by
  have tasks := (worker.look_others now).add_left worker.stage.tasks
  obtain ⟨front, queue, inbox, h⟩ := look_eq worker now
  rw [h] at tasks ⊢
  exact ⟨rfl, .inl, .inr rfl, fun r hr => List.mem_of_mem_filter hr, tasks⟩

theorem attend (worker : Worker α) (now : Instant) : Keeps now worker (worker.attend now) :=
  have h := look worker now
  ⟨h.closing, .inr, h.looked, h.resting, h.tasks⟩

theorem depart {worker : Worker α} (now : Instant) (closing : worker.closing = true) :
    Keeps now worker (worker.depart now) where
  closing := closing.symm
  leaving := fun _ => .inr closing
  looked := .inr rfl
  resting := fun _ h => nomatch h
  tasks := ⟨Multiset.zero_le _, fun open' => by rw [closing] at open'; cases open'⟩

theorem take {worker after : Worker α} {task : α} (now : Instant) (h : worker.Takes task after)
    (nothing : worker.stage.tasks = 0) (turns streak credit : Nat) (pace : Pace) :
    Keeps now worker
      { after with
        stage := .busy task
        turns := turns
        streak := streak
        credit := credit
        pace := pace } := by
  obtain ⟨⟨front, queue, inbox, rfl⟩, others⟩ := h
  refine ⟨rfl, .inl, .inl rfl, fun _ h => h, .of_eq ?_⟩
  change {task} + (worker.withHand front queue inbox).others = worker.stage.tasks + worker.others
  rw [nothing, others, zero_add]

theorem setStage {before after : Worker α} {now : Instant} (h : Keeps now before after)
    {stage : Stage α} (same : stage.tasks = after.stage.tasks) (streak : Nat) (pace : Pace) :
    Keeps now before { after with stage := stage, streak := streak, pace := pace } := by
  refine ⟨h.closing, h.leaving, h.looked, h.resting, ?_⟩
  change Left before.closing (stage.tasks + after.others) before.tasks
  rw [same]
  exact h.tasks

end Keeps

def upForTurn (worker : Worker α) (now : Instant) : Worker α :=
  let worker := { worker with turns := worker.turns + 1 }
  let worker := if worker.turns % lookEvery = 0 then worker.attend now else worker
  if worker.turns % worker.pace.every = 0 then { worker with pace := worker.pace.adapt } else worker

theorem upForTurn_keeps (worker : Worker α) (now : Instant) :
    Keeps now worker (worker.upForTurn now) ∧ (worker.upForTurn now).stage = worker.stage ∧
      (worker.upForTurn now).streak = worker.streak := by
  have counted : Keeps now worker { worker with turns := worker.turns + 1 } :=
    ⟨rfl, .inl, .inl rfl, fun _ h => h, .refl _ _⟩
  have attended := counted.trans (Keeps.attend { worker with turns := worker.turns + 1 } now)
  have stage : (Worker.attend { worker with turns := worker.turns + 1 } now).stage = worker.stage ∧
      (Worker.attend { worker with turns := worker.turns + 1 } now).streak = worker.streak := by
    obtain ⟨front, queue, inbox, h⟩ := look_eq { worker with turns := worker.turns + 1 } now
    unfold attend
    rw [h]
    exact ⟨rfl, rfl⟩
  have adapted {middle : Worker α} (h : Keeps now worker middle ∧ middle.stage = worker.stage ∧
      middle.streak = worker.streak) (pace : Pace) :
      Keeps now worker { middle with pace := pace } ∧ middle.stage = worker.stage ∧
        middle.streak = worker.streak :=
    ⟨⟨h.1.closing, h.1.leaving, h.1.looked, h.1.resting, h.1.tasks⟩, h.2⟩
  unfold upForTurn
  dsimp only
  split <;> split
  · exact adapted ⟨attended, stage⟩ _
  · exact ⟨attended, stage⟩
  · exact adapted ⟨counted, rfl, rfl⟩ _
  · exact ⟨counted, rfl, rfl⟩

theorem turn_eq (worker : Worker α) (now : Instant) :
    ∃ inboxFirst, worker.turn now =
      match (worker.upForTurn now).next? inboxFirst with
      | some (task, worker) =>
        { worker with stage := .busy task, credit := maxCredit, pace := worker.pace.count }
      | none => (worker.upForTurn now).relax now := ⟨_, rfl⟩

theorem look_stage (worker : Worker α) (now : Instant) :
    (worker.look now).stage = worker.stage ∧ (worker.look now).streak = worker.streak ∧
      (worker.look now).aside = [] := by
  obtain ⟨front, queue, inbox, h⟩ := look_eq worker now
  rw [h]
  exact ⟨rfl, rfl, rfl⟩

/-- A worker that looks at the beginning of a turn and then has nobody at its front has not found
anything. -/
theorem look_idle {worker : Worker α} {now : Instant} (streak : worker.streak = 0)
    (queue : worker.queue = []) (front : (worker.look now).front.isNone = true) :
    (worker.look now).front = none ∧ (worker.look now).queue = [] := by
  have none_ready : worker.due now ++ worker.aside.reverse = [] := by
    by_contra some_ready
    have h := foldl_push_front _ (worker.roused now)
      (by rw [show (worker.roused now).streak = 0 from streak]; decide) (.inl some_ready)
    change (worker.look now).front.isSome = true at h
    rw [Option.isNone_iff_eq_none] at front
    simp [front] at h
  refine ⟨Option.isNone_iff_eq_none.mp front, ?_⟩
  change ((worker.due now ++ worker.aside.reverse).foldl push (worker.roused now)).queue = []
  rw [none_ready]
  exact queue

theorem wake_sound (worker : Worker α) {now : Instant} (nothing : worker.stage.tasks = 0)
    (streak : worker.streak = 0) (queue : worker.queue = []) :
    Keeps now worker (worker.wake now) ∧ (worker.wake now).Settled := by
  unfold wake
  split
  · rename_i closing
    refine ⟨.depart now closing, ?_, nofun, fun h => ?_⟩
    · exact fun _ => ⟨rfl, rfl⟩
    · obtain h | h := h <;> cases h
  · have keeps := Keeps.look worker now
    obtain ⟨stage, same, aside⟩ := look_stage worker now
    dsimp only
    split
    · rename_i none_left
      rw [Bool.and_eq_true] at none_left
      have hand := look_idle streak queue none_left.1
      refine ⟨keeps.setStage (by rw [stage, nothing]; rfl) _ _, nofun, fun _ => ?_, fun _ => ?_⟩
      · exact ⟨hand.1, hand.2, aside⟩
      · exact same.trans streak
    · refine ⟨keeps.setStage (by rw [stage, nothing]; rfl) _ _, nofun, nofun, fun _ => ?_⟩
      exact same.trans streak

theorem relax_sound {worker : Worker α} {now : Instant} (nothing : worker.stage.tasks = 0)
    (streak : worker.streak = 0) (queue : worker.queue = []) :
    Keeps now worker (worker.relax now) ∧ (worker.relax now).Settled := by
  have closed : Keeps now worker { worker with pace := worker.pace.close now } :=
    (Keeps.refl now worker).setStage rfl _ _
  unfold relax
  dsimp only
  split
  · obtain ⟨keeps, settled⟩ := wake_sound { worker with pace := worker.pace.close now }
      nothing streak queue
    exact ⟨closed.trans keeps, settled⟩
  · have keeps := closed.trans (Keeps.look _ now)
    obtain ⟨stage, same, -⟩ := look_stage { worker with pace := worker.pace.close now } now
    refine ⟨keeps.setStage (by rw [stage, nothing]; rfl) _ _, nofun, nofun, fun _ => ?_⟩
    exact same.trans streak

theorem turn_sound {worker : Worker α} {now : Instant} (stage : worker.stage = .free)
    (streak : worker.streak = 0) :
    Keeps now worker (worker.turn now) ∧ (worker.turn now).Settled := by
  obtain ⟨keeps, sameStage, sameStreak⟩ := upForTurn_keeps worker now
  rw [stage] at sameStage
  have nothing : (worker.upForTurn now).stage.tasks = 0 := by rw [sameStage]; rfl
  obtain ⟨inboxFirst, h⟩ := turn_eq worker now
  rw [h]
  cases next : (worker.upForTurn now).next? inboxFirst with
  | some taken =>
    refine ⟨keeps.trans (.take now (next?_takes next) nothing _ _ _ _), .of_active rfl⟩
  | none =>
    obtain ⟨-, queue, -⟩ := next?_none next
    obtain ⟨relaxed, settled⟩ := relax_sound nothing (sameStreak.trans streak) queue
    exact ⟨keeps.trans relaxed, settled⟩

theorem follow_sound {worker : Worker α} (now : Instant) (stage : worker.stage = .between) :
    Keeps now worker worker.follow ∧ worker.follow.Settled := by
  have nothing : worker.stage.tasks = 0 := by rw [stage]; rfl
  unfold follow
  split
  · refine ⟨(Keeps.refl now worker).setStage (by rw [nothing]; rfl) _ _, nofun, nofun, fun _ => rfl⟩
  · rename_i task front
    have takes : worker.Takes task { worker with front := none } := by
      have h : worker.own? = some (task, { worker with front := none }) := by
        unfold own?
        rw [front]
      exact own?_takes h
    dsimp only
    split
    · obtain ⟨queue, inbox, h⟩ := enqueue_eq { worker with front := none } task
      have others := enqueue_others { worker with front := none } task
      rw [h] at others ⊢
      refine ⟨⟨rfl, .inl, .inl rfl, fun _ h => h, ?_⟩, nofun, nofun, fun _ => rfl⟩
      change Left worker.closing (0 + _) (worker.stage.tasks + worker.others)
      rw [nothing, takes.others, zero_add, zero_add]
      exact others
    · exact ⟨.take now takes nothing _ _ _ _, .of_active rfl⟩

/-- A step of the worker itself keeps what it has, and leaves nothing behind when it goes idle. -/
theorem advance_sound {worker : Worker Task} {now : Instant} (h : worker.Sound now) :
    Keeps now worker (worker.advance now) ∧ (worker.advance now).Settled := by
  unfold advance
  split
  · rename_i stage
    split
    · rename_i leaving
      refine ⟨.depart now (h.leaving leaving), fun _ => ⟨rfl, rfl⟩, nofun, fun h => ?_⟩
      obtain h | h := h <;> cases h
    · exact turn_sound stage (h.settled.streak (.inl stage))
  · rename_i stage
    exact follow_sound now stage
  · rename_i stage
    exact wake_sound worker (by rw [stage]; rfl) (h.settled.streak (.inr stage))
      (h.settled.idle stage).2.1
  · rename_i task free stage
    exact ⟨(Keeps.refl now worker).setStage (by rw [stage]; rfl) _ _, .of_active rfl⟩
  · exact ⟨.refl now worker, h.settled⟩
  · exact ⟨.refl now worker, h.settled⟩

theorem Sound.of_keeps {before after : Worker Task} {now : Instant} (h : before.Sound now)
    (keeps : Keeps now before after) (settled : after.Settled) : after.Sound now where
  settled := settled
  looked := by
    obtain same | look := keeps.looked
    · exact same ▸ h.looked
    · exact look.le
  leaving := fun left => by
    rw [keeps.closing]
    obtain left | closing := keeps.leaving left
    · exact h.leaving left
    · exact closing
  due := fun r hr => h.due r (keeps.resting r hr)

theorem Sound.advance {worker : Worker Task} {now : Instant} (h : worker.Sound now) :
    (worker.advance now).Sound now :=
  have ⟨keeps, settled⟩ := advance_sound h
  h.of_keeps keeps settled

theorem Sound.later {worker : Worker Task} {now time : Instant} (h : worker.Sound now)
    (later : now ≤ time) : worker.Sound time :=
  ⟨h.settled, h.looked.trans later, h.leaving, h.due⟩

theorem Sound.close {worker : Worker Task} {now : Instant} (h : worker.Sound now) :
    Sound { worker with closing := true } now :=
  ⟨⟨fun gone => ⟨rfl, (h.settled.gone gone).2⟩, h.settled.idle, h.settled.streak⟩, h.looked,
    fun _ => rfl, h.due⟩

theorem Sound.submitAll {worker : Worker Task} {now : Instant} (h : worker.Sound now)
    (tasks : List Task) : (worker.submitAll tasks).Sound now := by
  unfold Worker.submitAll
  split
  · exact h
  · rename_i open'
    refine ⟨⟨fun gone => ?_, h.settled.idle, h.settled.streak⟩, h.looked, h.leaving, h.due⟩
    exact absurd (h.settled.gone gone).1 open'

theorem Sound.rouse {worker : Worker Task} {now : Instant} (h : worker.Sound now)
    (which : Task → Bool) : (worker.rouse false which).Sound now := by
  have others := worker.rouse_others false which
  refine ⟨⟨fun gone => ?_, h.settled.idle, h.settled.streak⟩, h.looked, h.leaving,
    fun r hr => h.due r (List.mem_of_mem_filter hr)⟩
  obtain ⟨closing, none⟩ := h.settled.gone gone
  exact ⟨closing, Multiset.le_zero.mp (none ▸ others.le)⟩

theorem fresh_sound (now : Instant) : (fresh now : Worker Task).Sound now :=
  ⟨⟨nofun, nofun, fun _ => rfl⟩, le_refl _, nofun, fun _ h => nomatch h⟩

structure Amid (before after : Worker Task) (added : Multiset Task) : Prop where
  looked : after.looked = before.looked
  leaving : after.leaving = before.leaving
  closing : after.closing = before.closing
  due : ∀ r ∈ after.resting, r ∈ before.resting ∨ r.2.due? = some r.1
  others : Left before.closing after.others (added + before.others)

namespace Amid

theorem refl (worker : Worker Task) : Amid worker worker 0 :=
  ⟨rfl, rfl, rfl, fun _ h => .inl h, .of_eq (zero_add _).symm⟩

theorem trans {first second third : Worker Task} {more evenMore : Multiset Task}
    (h : Amid first second more) (h' : Amid second third evenMore) :
    Amid first third (more + evenMore) where
  looked := h'.looked.trans h.looked
  leaving := h'.leaving.trans h.leaving
  closing := h'.closing.trans h.closing
  due := fun r hr => by
    obtain hr | due := h'.due r hr
    · exact h.due r hr
    · exact .inr due
  others := by
    have left := h'.others
    rw [h.closing] at left
    refine (left.trans (h.others.add_left evenMore)).trans (.of_eq ?_)
    abel

theorem push (worker : Worker Task) (task : Task) : Amid worker (worker.push task) {task} := by
  have others := worker.push_others task
  obtain ⟨front, queue, inbox, h⟩ := push_eq worker task
  rw [h] at others ⊢
  exact ⟨rfl, rfl, rfl, fun _ h => .inl h, others⟩

theorem rouse (worker : Worker Task) (which : Task → Bool) :
    Amid worker (worker.rouse true which) 0 := by
  have others := worker.rouse_others true which
  obtain ⟨front, queue, inbox, h⟩ := rouse_eq worker true which
  rw [h] at others ⊢
  exact ⟨rfl, rfl, rfl, fun r hr => .inl (List.mem_of_mem_filter hr), by simpa using others⟩

theorem stepAside (worker : Worker Task) (task : Task) :
    Amid worker (worker.stepAside task) {task} := by
  refine ⟨rfl, rfl, rfl, fun _ h => .inl h, .of_eq ?_⟩
  simp only [Worker.stepAside, Worker.others, ← Multiset.coe_add, Multiset.coe_singleton]
  abel

theorem rest (worker : Worker Task) {task : Task} {due : Instant} (h : task.due? = some due) :
    Amid worker (worker.rest task due) {task} := by
  refine ⟨rfl, rfl, rfl, fun r hr => ?_, .of_eq ?_⟩
  · obtain hr | hr := List.mem_append.mp hr
    · exact .inl hr
    · rw [List.mem_singleton] at hr
      exact .inr (hr ▸ h)
  · simp only [Worker.rest, Worker.others, List.map_append, ← Multiset.coe_add, List.map_cons,
      List.map_nil, Multiset.coe_singleton]
    abel

theorem spend (worker : Worker Task) : Amid worker worker.spend 0 :=
  ⟨rfl, rfl, rfl, fun _ h => .inl h, .of_eq (zero_add _).symm⟩

end Amid

end Worker
end TokenKeeper
