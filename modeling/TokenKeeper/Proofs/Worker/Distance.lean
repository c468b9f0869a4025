import TokenKeeper.Proofs.Worker.Sound
/-! A worker with a single task does not go round and round: each step of its own brings it nearer
to the task, or to having nothing to do. -/
namespace TokenKeeper.Worker
variable {worker : Worker α} {now : Instant}

def hasHand (worker : Worker α) : Bool :=
  worker.front.isSome || !worker.queue.isEmpty || !worker.inbox.isEmpty

def isParked (worker : Worker α) (now : Instant) : Bool :=
  !worker.aside.isEmpty || worker.resting.any fun r => decide (r.1 ≤ now)

/-- How far a worker that is at no task is from the next one. If it has not looked at this moment, a
task that it comes to may have to wait again. -/
def backlog (worker : Worker α) (now : Instant) : Nat :=
  if worker.isParked now then 6
  else if worker.hasHand then (if worker.looked < now then 9 else 3)
  else 0

def distance (worker : Worker α) (now : Instant) : Nat :=
  match worker.stage with
  | .busy _ => if worker.looked < now ∨ worker.credit = 0 then 9 else 3
  | .between => worker.backlog now + 2
  | .free => worker.backlog now + 1
  | .idle => if worker.backlog now = 0 then 0 else worker.backlog now + 2
  | .held .. | .gone => 0

theorem not_parked (now : Instant) (sole : worker.others.card ≤ 1) (hand : worker.hasHand = true) :
    worker.isParked now = false := by
  simp only [others, Multiset.card_add, Multiset.coe_card, List.length_map] at sole
  have first : 1 ≤ worker.front.toList.length + worker.queue.length + worker.inbox.length := by
    unfold hasHand at hand
    cases front : worker.front with
    | some task => simp; omega
    | none =>
      simp only [front, Option.isSome_none, Bool.false_or, Bool.or_eq_true, Bool.not_eq_true',
        List.isEmpty_eq_false_iff, ← List.length_pos_iff] at hand
      omega
  have aside : worker.aside = [] := List.eq_nil_of_length_eq_zero (by omega)
  have resting : worker.resting = [] := List.eq_nil_of_length_eq_zero (by omega)
  simp [isParked, aside, resting]

theorem look_backlog (worker : Worker α) (now : Instant) :
    (worker.look now).isParked now = false ∧ (worker.look now).backlog now ≤ 3 := by
  obtain ⟨front, queue, inbox, h⟩ := look_eq worker now
  have parked : (worker.look now).isParked now = false := by
    rw [h]
    simp [isParked, roused, withHand]
  refine ⟨parked, ?_⟩
  unfold backlog
  rw [parked, h]
  simp only [Bool.false_eq_true, if_false, withHand, roused, lt_irrefl]
  split <;> omega

theorem look_nothing (parked : worker.isParked now = false) :
    worker.look now = worker.roused now := by
  simp only [isParked, Bool.or_eq_false_iff, Bool.not_eq_false', List.isEmpty_iff,
    List.any_eq_false, decide_eq_true_eq] at parked
  have due : worker.due now = [] := by
    unfold due
    rw [List.filter_eq_nil_iff.mpr]
    · simp
    · intro r hr
      simpa using parked.2 r hr
  unfold look
  rw [due, parked.1]
  rfl

theorem wake_distance (now : Instant) (running : worker.closing = false)
    (streak : worker.streak = 0) (queue : worker.queue = []) :
    (worker.wake now).distance now ≤ 4 ∧
      (worker.isParked now = false → worker.hasHand = false →
        (worker.wake now).distance now = 0) := by
  obtain ⟨parked, backlog⟩ := worker.look_backlog now
  unfold wake
  rw [running, if_neg Bool.false_ne_true]
  dsimp only
  split
  · rename_i empty
    rw [Bool.and_eq_true, List.isEmpty_iff] at empty
    have hand := look_idle streak queue empty.1
    have none : (worker.look now).backlog now = 0 := by
      simp [Worker.backlog, parked, hasHand, hand, empty.2]
    have nothing : ({ worker.look now with stage := .idle } : Worker α).distance now = 0 := by
      simp only [distance]
      exact if_pos none
    exact ⟨nothing.le.trans (Nat.zero_le 4), fun _ _ => nothing⟩
  · rename_i found
    refine ⟨Nat.succ_le_succ backlog, fun still nobody => ?_⟩
    rw [look_nothing still] at found
    simp [roused, hasHand] at found nobody
    simp [nobody] at found

theorem next?_hasHand {task : α} {after : Worker α} {inboxFirst : Bool}
    (next : worker.next? inboxFirst = some (task, after)) : worker.hasHand = true := by
  by_contra empty
  simp only [hasHand, Bool.not_eq_true, Bool.or_eq_false_iff, Bool.not_eq_false',
    List.isEmpty_iff, Option.isSome_eq_false_iff, Option.isNone_iff_eq_none] at empty
  obtain ⟨⟨front, queue⟩, inbox⟩ := empty
  unfold next? own? received? at next
  rw [front, queue, inbox] at next
  cases inboxFirst <;> cases next

structure Attentive (before after : Worker α) (now : Instant) : Prop where
  looked : after.looked = now
  parked : after.isParked now = false
  aside : after.aside = []
  hand : before.isParked now = false → after.hasHand = before.hasHand

structure Unmoved (before after : Worker α) (now : Instant) : Prop where
  looked : after.looked = before.looked
  parked : after.isParked now = before.isParked now
  aside : after.aside = before.aside
  hand : after.hasHand = before.hasHand

theorem attend_attentive (worker : Worker α) (now : Instant) :
    Attentive worker (worker.attend now) now := by
  constructor
  · obtain ⟨front, queue, inbox, h⟩ := look_eq worker now
    unfold attend
    rw [h]
    rfl
  · exact (look_backlog worker now).1
  · exact (look_stage worker now).2.2
  · intro parked
    unfold attend
    rw [look_nothing parked]
    rfl

theorem upForTurn_cases (worker : Worker α) (now : Instant) :
    Attentive worker (worker.upForTurn now) now ∨ Unmoved worker (worker.upForTurn now) now := by
  have attentive := attend_attentive { worker with turns := worker.turns + 1 } now
  unfold upForTurn
  dsimp only
  split <;> split
  · exact .inl ⟨attentive.looked, attentive.parked, attentive.aside, attentive.hand⟩
  · exact .inl ⟨attentive.looked, attentive.parked, attentive.aside, attentive.hand⟩
  · exact .inr ⟨rfl, rfl, rfl, rfl⟩
  · exact .inr ⟨rfl, rfl, rfl, rfl⟩

theorem distance_busy (worker : Worker α) (now : Instant) {task : α}
    (stage : worker.stage = .busy task) (credit : worker.credit ≠ 0) :
    worker.distance now = if worker.looked < now then 9 else 3 := by
  unfold distance
  rw [stage]
  simp [credit]

theorem backlog_parked (parked : worker.isParked now = true) : worker.backlog now = 6 :=
  if_pos parked

theorem backlog_le (parked : worker.isParked now = false) :
    worker.backlog now ≤ if worker.looked < now then 9 else 3 := by
  unfold backlog
  rw [parked, if_neg Bool.false_ne_true]
  split
  · rfl
  · exact Nat.zero_le _

theorem backlog_hand (parked : worker.isParked now = false) (hand : worker.hasHand = true) :
    worker.backlog now = if worker.looked < now then 9 else 3 := by
  simp [backlog, parked, hand]

theorem relax_distance (now : Instant) (running : worker.closing = false)
    (streak : worker.streak = 0) (queue : worker.queue = []) :
    (worker.relax now).distance now ≤ 4 ∧
      (worker.isParked now = false → worker.hasHand = false →
        (worker.relax now).distance now = 0) := by
  have still : { worker with pace := worker.pace.close now }.closing = false := running
  have woken := wake_distance now still streak queue
  unfold relax
  dsimp only
  split
  · exact woken
  · rename_i parked
    refine ⟨Nat.succ_le_succ (look_backlog _ now).2, fun still => ?_⟩
    simp only [isParked, Bool.or_eq_false_iff, Bool.not_eq_false'] at still
    simp [still] at parked

theorem turn_distance (stage : worker.stage = .free) (running : worker.closing = false)
    (streak : worker.streak = 0) (sole : worker.others.card ≤ 1) :
    (worker.turn now).distance now < worker.distance now := by
  obtain ⟨keeps, -, same⟩ := upForTurn_keeps worker now
  have before : worker.distance now = worker.backlog now + 1 := by
    unfold distance
    rw [stage]
  obtain ⟨inboxFirst, turned⟩ := turn_eq worker now
  rw [turned, before]
  have cases := upForTurn_cases worker now
  generalize worker.upForTurn now = ready at keeps same cases
  cases next : ready.next? inboxFirst with
  | some taken =>
    obtain ⟨task, after⟩ := taken
    have hand := next?_hasHand next
    obtain ⟨⟨front, queue, inbox, rfl⟩, -⟩ := next?_takes next
    dsimp only
    rw [distance_busy _ now rfl (show maxCredit ≠ 0 by decide)]
    change (if ready.looked < now then 9 else 3) < _
    -- The backlog counts the look at what is due, so a turn that has looked is nearer.
    cases parked : worker.isParked now with
    | true =>
      rw [backlog_parked parked]
      obtain attentive | unmoved := cases
      · rw [attentive.looked, if_neg (lt_irrefl now)]
        decide
      · have nothing := not_parked now sole (unmoved.hand.symm.trans hand)
        simp [nothing] at parked
    | false =>
      obtain attentive | unmoved := cases
      · rw [attentive.looked, if_neg (lt_irrefl now), backlog_hand parked
          ((attentive.hand parked).symm.trans hand)]
        split <;> decide
      · rw [backlog_hand parked (unmoved.hand.symm.trans hand), unmoved.looked]
        exact Nat.lt_succ_self _
  | none =>
    obtain ⟨front, queue, inbox⟩ := next?_none next
    have empty : ready.hasHand = false := by simp [hasHand, front, queue, inbox]
    obtain ⟨near, there⟩ := relax_distance now (keeps.closing.trans running)
      (same.trans streak) queue
    dsimp only
    cases parked : worker.isParked now with
    | true =>
      rw [backlog_parked parked]
      omega
    | false =>
      have still : ready.isParked now = false := by
        obtain attentive | unmoved := cases
        · exact attentive.parked
        · exact unmoved.parked.trans parked
      rw [there still empty]
      exact Nat.succ_pos _

theorem follow_distance (stage : worker.stage = .between) (sole : worker.others.card ≤ 1) :
    worker.follow.distance now < worker.distance now := by
  have before : worker.distance now = worker.backlog now + 2 := by
    unfold distance
    rw [stage]
  rw [before]
  unfold follow
  split
  · exact Nat.lt_succ_self _
  · rename_i task front
    have hand : worker.hasHand = true := by simp [hasHand, front]
    have still := not_parked now sole hand
    rw [backlog_hand still hand]
    dsimp only
    split
    · obtain ⟨queue, inbox, h⟩ := enqueue_eq { worker with front := none } task
      rw [h]
      exact Nat.succ_lt_succ (Nat.lt_succ_of_le (backlog_le still))
    · rename_i credit
      have here := distance_busy
        { worker with stage := .busy task, front := none, streak := worker.streak + 1 } now rfl
        credit
      rw [here]
      exact Nat.lt_add_of_pos_right Nat.two_pos

/-- Each step of its own brings a worker with a single task nearer to it. -/
theorem distance_advance {worker : Worker Task} (settled : worker.Settled)
    (running : worker.closing = false) (staying : worker.leaving = false)
    (unheld : ∀ task free, worker.stage ≠ .held task free) (own : ∀ task, worker.stage ≠ .busy task)
    (sole : worker.others.card ≤ 1) (ready : worker.isReady now = true) :
    (worker.advance now).distance now < worker.distance now := by
  unfold advance
  split
  · rename_i stage
    rw [if_neg (by simp [staying])]
    exact turn_distance stage running (settled.streak (.inl stage)) sole
  · rename_i stage
    exact follow_distance stage sole
  · rename_i stage
    -- An idle worker is ready only for what a look would find.
    have found : worker.backlog now ≠ 0 ∧ 3 ≤ worker.backlog now := by
      unfold isReady at ready
      rw [stage] at ready
      simp only [running, Bool.false_or, Bool.or_eq_true] at ready
      unfold backlog isParked hasHand
      obtain inbox | due := ready
      · rw [inbox]
        simp
        split_ifs <;> simp
      · rw [due]
        simp
    have woken := (wake_distance now running (settled.streak (.inr stage))
      (settled.idle stage).2.1).1
    have before : worker.distance now = worker.backlog now + 2 := by
      unfold distance
      rw [stage]
      exact if_neg found.1
    omega
  · rename_i task free stage
    exact absurd stage (unheld task free)
  · rename_i task stage
    exact absurd stage (own task)
  · rename_i stage
    unfold isReady at ready
    rw [stage] at ready
    cases ready

theorem others_eq_zero (none_else : worker.others = 0) :
    worker.hasHand = false ∧ worker.aside = [] ∧ worker.resting = [] := by
  have card := congrArg Multiset.card none_else
  simp only [others, Multiset.card_add, Multiset.coe_card, List.length_map,
    Multiset.card_zero] at card
  have front : worker.front.toList = [] := List.eq_nil_of_length_eq_zero (by omega)
  have queue : worker.queue = [] := List.eq_nil_of_length_eq_zero (by omega)
  have inbox : worker.inbox = [] := List.eq_nil_of_length_eq_zero (by omega)
  rw [Option.toList_eq_nil_iff] at front
  refine ⟨by simp [hasHand, front, queue, inbox], ?_, ?_⟩
  · exact List.eq_nil_of_length_eq_zero (by omega)
  · exact List.eq_nil_of_length_eq_zero (by omega)

/-- A task that steps aside has used up the credit of its turn. -/
theorem stepAside_distance {task : α} (stage : worker.stage = .busy task)
    (spent : worker.credit = 0) :
    ({ worker with stage := .between }.stepAside task).distance now < worker.distance now := by
  have before : worker.distance now = 9 := by
    unfold distance
    rw [stage]
    exact if_pos (.inr spent)
  have after : ({ worker with stage := .between }.stepAside task).backlog now = 6 :=
    backlog_parked (by simp [isParked, stepAside])
  rw [before]
  change _ + 2 < 9
  rw [after]
  decide

/-- The only task goes to rest because the worker has not looked since it was due. -/
theorem rest_distance {task : α} {due : Instant} (stage : worker.stage = .busy task)
    (credit : worker.credit ≠ 0) (ahead : worker.looked < due) (none_else : worker.others = 0) :
    ({ worker with stage := .between }.rest task due).distance now < worker.distance now := by
  obtain ⟨hand, aside, resting⟩ := others_eq_zero none_else
  rw [worker.distance_busy now stage credit]
  change ({ worker with stage := .between }.rest task due).backlog now + 2 < _
  by_cases lapsed : due ≤ now
  · rw [backlog_parked (by simp [isParked, rest, lapsed]), if_pos (ahead.trans_le lapsed)]
    decide
  · have still : ({ worker with stage := .between }.rest task due).isParked now = false := by
      simp [isParked, rest, aside, resting, lapsed]
    have nothing : ({ worker with stage := .between }.rest task due).backlog now = 0 := by
      unfold backlog
      rw [still, if_neg Bool.false_ne_true, if_neg]
      change ¬worker.hasHand = true
      rw [hand]
      decide
    rw [nothing]
    split <;> decide

end TokenKeeper.Worker
