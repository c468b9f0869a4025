import TokenKeeper.Pool.Worker
/-! A worker does not look into its tasks. Whatever they are replaced with, it goes on in the same
way. -/
namespace TokenKeeper

variable {α β : Type}

def Worker.Stage.map (g : α → β) : Worker.Stage α → Worker.Stage β
  | free => free
  | idle => idle
  | busy task => busy (g task)
  | held task t => held (g task) t
  | between => between
  | gone => gone

namespace Worker

def map (g : α → β) (worker : Worker α) : Worker β where
  stage := worker.stage.map g
  turns := worker.turns
  streak := worker.streak
  credit := worker.credit
  front := worker.front.map g
  queue := worker.queue.map g
  inbox := worker.inbox.map g
  aside := worker.aside.map g
  resting := worker.resting.map fun r => (r.1, g r.2)
  looked := worker.looked
  pace := worker.pace
  closing := worker.closing
  leaving := worker.leaving

variable (g : α → β) (worker : Worker α)

@[simp] theorem map_stage : (worker.map g).stage = worker.stage.map g := rfl
@[simp] theorem map_turns : (worker.map g).turns = worker.turns := rfl
@[simp] theorem map_streak : (worker.map g).streak = worker.streak := rfl
@[simp] theorem map_credit : (worker.map g).credit = worker.credit := rfl
@[simp] theorem map_front : (worker.map g).front = worker.front.map g := rfl
@[simp] theorem map_queue : (worker.map g).queue = worker.queue.map g := rfl
@[simp] theorem map_inbox : (worker.map g).inbox = worker.inbox.map g := rfl
@[simp] theorem map_aside : (worker.map g).aside = worker.aside.map g := rfl
@[simp] theorem map_looked : (worker.map g).looked = worker.looked := rfl
@[simp] theorem map_pace : (worker.map g).pace = worker.pace := rfl
@[simp] theorem map_closing : (worker.map g).closing = worker.closing := rfl
@[simp] theorem map_leaving : (worker.map g).leaving = worker.leaving := rfl
@[simp] theorem map_resting :
    (worker.map g).resting = worker.resting.map fun r => (r.1, g r.2) := rfl

@[simp] theorem map_mk {stage : Stage α} {turns streak credit : Nat} {front : Option α}
    {queue inbox aside : List α} {resting : List (Instant × α)} {looked : Instant} {pace : Pace}
    {closing leaving : Bool} :
    (Worker.mk stage turns streak credit front queue inbox aside resting looked pace closing
      leaving).map g = ⟨stage.map g, turns, streak, credit, front.map g, queue.map g, inbox.map g,
        aside.map g, resting.map fun r => (r.1, g r.2), looked, pace, closing, leaving⟩ := rfl

theorem map_fresh (now : Instant) : (fresh now : Worker α).map g = fresh now := rfl

theorem submitAll_map (tasks : List α) :
    (worker.submitAll tasks).map g = (worker.map g).submitAll (tasks.map g) := by
  unfold submitAll
  cases closing : worker.closing <;> simp [closing]

theorem submit_map (task : α) : (worker.submit task).map g = (worker.map g).submit (g task) :=
  worker.submitAll_map g [task]

theorem enqueue_map (task : α) :
    (worker.enqueue task).map g = (worker.map g).enqueue (g task) := by
  unfold enqueue
  by_cases less : worker.queue.length < maxQueue <;> simp [less, submitAll_map]

theorem push_map (task : α) : (worker.push task).map g = (worker.map g).push (g task) := by
  have back : (worker.front.toList.foldl enqueue worker).map g =
      ((worker.map g).front.toList.foldl enqueue (worker.map g)) := by
    cases front : worker.front <;> simp [front, enqueue_map]
  unfold push
  rw [← back]
  by_cases less : worker.streak < maxStreak <;> simp [less, enqueue_map]

theorem pushAll_map (tasks : List α) :
    (tasks.foldl push worker).map g = (tasks.map g).foldl push (worker.map g) := by
  induction tasks generalizing worker with
  | nil => rfl
  | cons task tasks ih => simp [ih, push_map]

theorem rest_map (task : α) (due : Instant) :
    (worker.rest task due).map g = (worker.map g).rest (g task) due := by
  simp [rest]

theorem stepAside_map (task : α) :
    (worker.stepAside task).map g = (worker.map g).stepAside (g task) := by
  simp [stepAside]

theorem spend_map : worker.spend.map g = (worker.map g).spend := rfl

theorem rouse_map (own : Bool) {which : α → Bool} {which' : β → Bool}
    (same : ∀ task, which' (g task) = which task) :
    (worker.rouse own which).map g = (worker.map g).rouse own which' := by
  unfold rouse
  cases own <;> simp [pushAll_map, List.filter_map, Function.comp_def, same]

theorem due_map (now : Instant) : (worker.map g).due now = (worker.due now).map g := by
  have sorted (l : List (Instant × α)) :
      (l.map fun r => (r.1, g r.2)).mergeSort (fun r s => r.1 ≤ s.1) =
        (l.mergeSort fun r s => r.1 ≤ s.1).map fun r => (r.1, g r.2) := by
    rw [List.map_mergeSort (s := fun r s : Instant × β => decide (r.1 ≤ s.1))]
    simp
  simp [due, List.filter_map, Function.comp_def, sorted]

theorem look_map (now : Instant) : (worker.look now).map g = (worker.map g).look now := by
  unfold look
  rw [pushAll_map, due_map]
  simp [List.filter_map, Function.comp_def]

theorem attend_map (now : Instant) : (worker.attend now).map g = (worker.map g).attend now := by
  unfold attend
  rw [← look_map]
  rfl

theorem own?_map : (worker.map g).own? = worker.own?.map fun r => (g r.1, r.2.map g) := by
  unfold own?
  cases front : worker.front with
  | some task => simp [front]
  | none => cases queue : worker.queue <;> simp [front, queue]

theorem received?_map (count : Nat) :
    (worker.map g).received? count =
      (worker.received? count).map fun r => (g r.1, r.2.map g) := by
  unfold received?
  cases inbox : worker.inbox <;> simp [inbox]

theorem next?_map (inboxFirst : Bool) :
    (worker.map g).next? inboxFirst =
      (worker.next? inboxFirst).map fun r => (g r.1, r.2.map g) := by
  unfold next?
  rw [own?_map, received?_map, received?_map]
  split
  · cases worker.received? 0 <;> simp
  · cases worker.own? <;> simp

theorem depart_map (now : Instant) : (worker.depart now).map g = (worker.map g).depart now := rfl

theorem wake_map (now : Instant) : (worker.wake now).map g = (worker.map g).wake now := by
  unfold wake
  rw [← look_map]
  cases closing : worker.closing with
  | true => simp [closing, depart_map]
  | false =>
    by_cases nothing : (worker.look now).front = none ∧ (worker.look now).inbox = [] <;>
      simp [closing, nothing, Stage.map]

theorem relax_map (now : Instant) : (worker.relax now).map g = (worker.map g).relax now := by
  have close : { worker.map g with pace := (worker.map g).pace.close now } =
      map g { worker with pace := worker.pace.close now } := rfl
  unfold relax
  rw [close]
  dsimp only
  rw [← look_map]
  by_cases wakes : worker.leaving = true ∨ worker.aside = []
  · simp [wakes, wake_map]
  · simp [wakes, Stage.map]

def counted (worker : Worker α) (now : Instant) : Worker α :=
  if (worker.turns + 1) % lookEvery = 0 then attend { worker with turns := worker.turns + 1 } now
  else { worker with turns := worker.turns + 1 }

def inboxFirst (worker : Worker α) : Bool := worker.turns % worker.pace.every = 0

def takeNext (worker : Worker α) (now : Instant) : Worker α :=
  let adapted := if worker.inboxFirst then { worker with pace := worker.pace.adapt } else worker
  match adapted.next? worker.inboxFirst with
  | some (task, worker) =>
    { worker with stage := .busy task, credit := maxCredit, pace := worker.pace.count }
  | none => adapted.relax now

theorem turn_eq_takeNext (now : Instant) : worker.turn now = (worker.counted now).takeNext now := by
  unfold turn takeNext inboxFirst
  simp only [decide_eq_true_eq]
  rfl

theorem counted_map (now : Instant) :
    (worker.counted now).map g = (worker.map g).counted now := by
  unfold counted
  rw [apply_ite (map g), attend_map]
  rfl

theorem takeNext_map (now : Instant) :
    (worker.takeNext now).map g = (worker.map g).takeNext now := by
  have same : (worker.map g).inboxFirst = worker.inboxFirst := rfl
  unfold takeNext
  rw [same]
  cases worker.inboxFirst with
  | true =>
    have adapted : { worker.map g with pace := (worker.map g).pace.adapt } =
        map g { worker with pace := worker.pace.adapt } := rfl
    simp only [if_true]
    rw [adapted, next?_map]
    cases next : next? { worker with pace := worker.pace.adapt } true <;>
      simp [relax_map, Stage.map]
  | false =>
    simp only [Bool.false_eq_true, if_false, next?_map]
    cases worker.next? false <;> simp [relax_map, Stage.map]

theorem turn_map (now : Instant) : (worker.turn now).map g = (worker.map g).turn now := by
  rw [turn_eq_takeNext, turn_eq_takeNext, takeNext_map, counted_map]

theorem follow_map : worker.follow.map g = (worker.map g).follow := by
  unfold follow
  cases front : worker.front with
  | none => simp [front, Stage.map]
  | some task =>
    have cleared : { worker.map g with front := none } = map g { worker with front := none } := rfl
    simp only [front, map_front, Option.map_some]
    rw [cleared, ← enqueue_map]
    by_cases spent : worker.credit = 0 <;> simp [spent, Stage.map]

theorem advance_map (now : Instant) : (worker.advance now).map g = (worker.map g).advance now := by
  unfold advance
  cases stage : worker.stage with
  | free =>
    cases leaving : worker.leaving <;> simp [stage, Stage.map, leaving, depart_map, turn_map]
  | between => simp [stage, Stage.map, follow_map]
  | idle => simp [stage, Stage.map, wake_map]
  | held | busy | gone => simp [stage, Stage.map]

@[simp] theorem isReady_map (now : Instant) :
    (worker.map g).isReady now = worker.isReady now := by
  unfold isReady
  simp only [map_stage]
  cases worker.stage <;> simp [Stage.map, Function.comp_def]

@[simp] theorem isGone_map : (worker.map g).isGone = worker.isGone := by
  unfold isGone
  simp only [map_stage]
  cases worker.stage <;> rfl

@[simp] theorem wakes_map : (worker.map g).wakes = worker.wakes := by
  unfold wakes
  simp only [map_stage]
  cases worker.stage <;> simp [Stage.map, Function.comp_def]

end Worker
end TokenKeeper
