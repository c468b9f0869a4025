import TokenKeeper.Proofs.Worker.Sound
/-! How a closing worker comes to its end. It finds out that it closes when it has nothing at hand,
or at the next turn at which it looks although it is busy. Up to then it takes up what is ready. -/
namespace TokenKeeper.Worker
variable {worker : Worker α} {now : Instant}

def FrontFits (worker : Worker α) : Prop := worker.front.isSome = true → worker.streak < maxStreak

theorem FrontFits.of_empty (front : worker.front = none) : worker.FrontFits :=
  fun some_front => by rw [front] at some_front; cases some_front

theorem FrontFits.of_streak (streak : worker.streak = 0) : worker.FrontFits :=
  fun _ => streak ▸ by decide

def turnsLeft (worker : Worker α) : Nat :=
  if worker.leaving then 0 else lookEvery - worker.turns % lookEvery

/-- How many tasks a closing worker takes up yet, at most: one for each turn and those that follow
it, and those that follow in the turn at hand. -/
def tasksLeft (worker : Worker α) : Nat :=
  match worker.stage with
  | .idle | .gone => 0
  | .free => (maxStreak + 1) * worker.turnsLeft
  | .busy _ | .held .. | .between =>
    (maxStreak + 1) * worker.turnsLeft + (maxStreak - worker.streak)

section Turns

theorem depart_stage (worker : Worker α) (now : Instant) : (worker.depart now).stage = .gone := rfl

theorem wake_closing (closing : worker.closing = true) : worker.wake now = worker.depart now := by
  unfold wake
  rw [if_pos closing]

theorem wake_streak (streak : worker.streak = 0) : (worker.wake now).streak = 0 := by
  unfold wake
  split
  · rfl
  · have same := (look_stage worker now).2.1.trans streak
    dsimp only
    split
    · exact same
    · exact same

theorem relax_streak (streak : worker.streak = 0) : (worker.relax now).streak = 0 := by
  unfold relax
  dsimp only
  split
  · have tired : { worker with pace := worker.pace.close now }.streak = 0 := streak
    exact wake_streak tired
  · exact (look_stage _ now).2.1.trans streak

/-- At every so many turns a worker finds out whether it closes, and then what is due leaves its
rest. -/
theorem upForTurn_looks (worker : Worker α) (now : Instant) :
    (worker.upForTurn now).turns = worker.turns + 1 ∧
    (worker.upForTurn now).closing = worker.closing ∧
    ((worker.turns + 1) % lookEvery = 0 ∧ (worker.upForTurn now).leaving = worker.closing ∧
        (worker.upForTurn now).resting = worker.resting.filter (fun r => now < r.1) ∨
      (worker.turns + 1) % lookEvery ≠ 0 ∧ (worker.upForTurn now).leaving = worker.leaving ∧
        (worker.upForTurn now).aside = worker.aside ∧
        (worker.upForTurn now).resting = worker.resting) := by
  obtain ⟨front, queue, inbox, looked⟩ := look_eq { worker with turns := worker.turns + 1 } now
  unfold upForTurn attend
  dsimp only
  split
  · rename_i look
    rw [looked]
    split <;> exact ⟨rfl, rfl, .inl ⟨look, rfl, rfl⟩⟩
  · rename_i busy
    split <;> exact ⟨rfl, rfl, .inr ⟨busy, rfl, rfl, rfl⟩⟩

theorem upForTurn_turnsLeft (now : Instant) (closing : worker.closing = true)
    (staying : worker.leaving = false) :
    (worker.upForTurn now).turnsLeft + 1 ≤ worker.turnsLeft := by
  obtain ⟨turns, -, looks⟩ := upForTurn_looks worker now
  unfold turnsLeft
  rw [turns, staying, if_neg Bool.false_ne_true]
  have positive : 0 < lookEvery := by decide
  rcases looks with ⟨-, leaving, -⟩ | ⟨busy, same, -⟩
  · have bound := Nat.mod_lt worker.turns positive
    rw [leaving, closing, if_pos rfl]
    omega
  · rw [same, staying, if_neg Bool.false_ne_true]
    simp only [lookEvery] at busy ⊢
    omega

inductive Turned (worker : Worker α) (now : Instant) (after : Worker α) : Prop where
  | took {task} (stage : after.stage = .busy task)
      (same : after.turns = (worker.upForTurn now).turns ∧
        after.leaving = (worker.upForTurn now).leaving ∧
        after.streak = (worker.upForTurn now).streak ∧
        after.resting = (worker.upForTurn now).resting)
  | gone (stage : after.stage = .gone)
  | looked (staying : (worker.upForTurn now).leaving = false)
      (aside : (worker.upForTurn now).aside ≠ []) (stage : after.stage = .free)
      (same : after.turns = (worker.upForTurn now).turns ∧
        after.leaving = (worker.upForTurn now).leaving ∧
        after.streak = (worker.upForTurn now).streak ∧
        after.resting = (worker.upForTurn now).resting.filter fun r => now < r.1)

theorem turn_turned (now : Instant) (closing : worker.closing = true) :
    Turned worker now (worker.turn now) := by
  have same := (upForTurn_looks worker now).2.1.trans closing
  obtain ⟨inboxFirst, turned⟩ := turn_eq worker now
  rw [turned]
  cases next : (worker.upForTurn now).next? inboxFirst with
  | some taken =>
    obtain ⟨⟨front, queue, inbox, hand⟩, -⟩ := next?_takes next
    dsimp only
    rw [hand]
    exact .took rfl ⟨rfl, rfl, rfl, rfl⟩
  | none =>
    dsimp only
    unfold relax
    dsimp only
    split
    · exact .gone (by rw [wake_closing (by exact same)]; rfl)
    · rename_i goes_on
      rw [Bool.or_eq_true, not_or, Bool.not_eq_true, List.isEmpty_iff] at goes_on
      obtain ⟨front, queue, inbox, looked⟩ := look_eq
        { worker.upForTurn now with pace := (worker.upForTurn now).pace.close now } now
      rw [looked]
      exact .looked goes_on.1 goes_on.2 rfl ⟨rfl, rfl, rfl, rfl⟩

end Turns

theorem follow_front (worker : Worker α) : worker.follow.front = none := by
  unfold follow
  split
  · assumption
  · dsimp only
    split
    · rename_i task _ _
      obtain ⟨queue, inbox, same⟩ := enqueue_eq { worker with front := none } task
      rw [same]
      rfl
    · rfl

theorem advance_frontFits (settled : worker.Settled) (fits : worker.FrontFits) :
    (worker.advance now).FrontFits := by
  unfold advance
  split
  · rename_i stage
    have streak := settled.streak (.inl stage)
    split
    · exact .of_empty rfl
    · obtain ⟨-, -, same⟩ := upForTurn_keeps worker now
      obtain ⟨inboxFirst, turned⟩ := turn_eq worker now
      rw [turned]
      cases next : (worker.upForTurn now).next? inboxFirst with
      | some taken =>
        obtain ⟨⟨front, queue, inbox, hand⟩, -⟩ := next?_takes next
        refine .of_streak ?_
        dsimp only
        rw [hand]
        exact same.trans streak
      | none => exact .of_streak (relax_streak (same.trans streak))
  · exact .of_empty (follow_front worker)
  · rename_i stage
    exact .of_streak (wake_streak (settled.streak (.inr stage)))
  · exact fits
  · exact fits
  · exact fits

theorem turnsLeft_congr {after : Worker α} (turns : after.turns = worker.turns)
    (leaving : after.leaving = worker.leaving) : after.turnsLeft = worker.turnsLeft := by
  unfold turnsLeft
  rw [turns, leaving]

theorem tasksLeft_free (stage : worker.stage = .free) :
    worker.tasksLeft = (maxStreak + 1) * worker.turnsLeft := by
  unfold tasksLeft
  rw [stage]

theorem tasksLeft_active (active : worker.stage.isActive = true) :
    worker.tasksLeft = (maxStreak + 1) * worker.turnsLeft + (maxStreak - worker.streak) := by
  unfold tasksLeft
  cases stage : worker.stage with
  | busy | held | between => rfl
  | free | idle | gone =>
    rw [stage] at active
    cases active

theorem tasksLeft_gone (stage : worker.stage = .gone) : worker.tasksLeft = 0 := by
  unfold tasksLeft
  rw [stage]

theorem turn_tasksLeft (now : Instant) (stage : worker.stage = .free) (streak : worker.streak = 0)
    (closing : worker.closing = true) (staying : worker.leaving = false) :
    (worker.turn now).tasksLeft + (worker.turn now).stage.tasks.card ≤ worker.tasksLeft := by
  have used := upForTurn_turnsLeft now closing staying
  have fresh := (upForTurn_keeps worker now).2.2.trans streak
  have turned := turn_turned now closing
  rw [tasksLeft_free stage]
  refine le_trans ?_ (Nat.mul_le_mul_left _ used)
  generalize worker.turn now = after at turned
  cases turned with
  | took stage same =>
    obtain ⟨turns, leaving, streak, -⟩ := same
    rw [tasksLeft_active (by rw [stage]; rfl), turnsLeft_congr turns leaving, streak, fresh, stage]
    simp [Stage.tasks, maxStreak]
    omega
  | gone stage =>
    rw [tasksLeft_gone stage, stage]
    exact Nat.zero_le _
  | looked _ _ stage same =>
    rw [tasksLeft_free stage, turnsLeft_congr same.1 same.2.1, stage]
    exact Nat.mul_le_mul_left _ (Nat.le_succ _)

theorem follow_tasksLeft (stage : worker.stage = .between) (fits : worker.FrontFits) :
    worker.follow.tasksLeft + worker.follow.stage.tasks.card ≤ worker.tasksLeft := by
  have active : worker.stage.isActive = true := by rw [stage]; rfl
  rw [tasksLeft_active active]
  unfold follow
  split
  · rw [tasksLeft_free rfl]
    exact Nat.le_add_right _ _
  · rename_i task front
    have place := fits (by rw [front]; rfl)
    dsimp only
    split
    · obtain ⟨queue, inbox, same⟩ := enqueue_eq { worker with front := none } task
      rw [same, tasksLeft_free rfl]
      exact Nat.le_add_right _ _
    · rw [tasksLeft_active rfl]
      change (maxStreak + 1) * worker.turnsLeft + (maxStreak - (worker.streak + 1)) + 1 ≤ _
      omega

/-- A closing worker uses up what it may still take up. -/
theorem advance_tasksLeft (settled : worker.Settled) (fits : worker.FrontFits)
    (closing : worker.closing = true) :
    (worker.advance now).tasksLeft +
      ((worker.advance now).stage.tasks.card - worker.stage.tasks.card) ≤ worker.tasksLeft := by
  have departs : (worker.depart now).tasksLeft +
      ((worker.depart now).stage.tasks.card - worker.stage.tasks.card) ≤ worker.tasksLeft := by
    rw [tasksLeft_gone rfl, depart_stage, Stage.tasks, Multiset.card_zero, Nat.zero_sub]
    exact Nat.zero_le _
  unfold advance
  split
  · rename_i stage
    split
    · exact departs
    · rename_i staying
      rw [Bool.not_eq_true] at staying
      have spent := turn_tasksLeft now stage (settled.streak (.inl stage)) closing staying
      exact (Nat.add_le_add_left (Nat.sub_le _ _) _).trans spent
  · rename_i stage
    exact (Nat.add_le_add_left (Nat.sub_le _ _) _).trans (follow_tasksLeft stage fits)
  · rw [wake_closing closing]
    exact departs
  · rename_i task free stage
    have active : worker.stage.isActive = true := by rw [stage]; rfl
    rw [tasksLeft_active active, stage, tasksLeft_active rfl]
    rfl
  · simp
  · simp

def Looks (worker : Worker α) : Prop :=
  worker.stage = .free ∧ worker.leaving = false ∧
    ((worker.turns + 1) % lookEvery = 0 ∨ worker.aside ≠ [])

/-- What rests goes on to rest in a closing worker, unless the worker is gone, or it is due and the
worker looks for it. -/
theorem advance_resting (closing : worker.closing = true) {r : Instant × α}
    (rests : r ∈ worker.resting) :
    r ∈ (worker.advance now).resting ∨ (worker.advance now).stage = .gone ∨
      r.1 ≤ now ∧ worker.Looks := by
  unfold advance
  split
  · rename_i stage
    split
    · exact .inr (.inl rfl)
    · rename_i staying
      rw [Bool.not_eq_true] at staying
      obtain ⟨-, -, looks⟩ := upForTurn_looks worker now
      have turned := turn_turned now closing
      -- A look takes only what is due from the rest.
      have filtered {l : List (Instant × α)} (member : r ∈ l)
          (why : (worker.turns + 1) % lookEvery = 0 ∨ worker.aside ≠ []) :
          r ∈ l.filter (fun r => now < r.1) ∨ r.1 ≤ now ∧ worker.Looks := by
        by_cases later : now < r.1
        · exact .inl (List.mem_filter.mpr ⟨member, by simpa using later⟩)
        · exact .inr ⟨Nat.not_lt.mp later, stage, staying, why⟩
      generalize worker.turn now = after at turned
      cases turned with
      | gone stage => exact .inr (.inl stage)
      | took _ same =>
        rw [same.2.2.2]
        rcases looks with ⟨look, -, resting⟩ | ⟨-, -, -, resting⟩
        · rw [resting]
          exact (filtered rests (.inl look)).imp_right .inr
        · exact .inl (resting ▸ rests)
      | looked unaware aside _ same =>
        rw [same.2.2.2]
        rcases looks with ⟨look, leaving, -⟩ | ⟨-, -, same_aside, resting⟩
        · rw [leaving, closing] at unaware
          cases unaware
        · rw [resting]
          exact (filtered rests (.inr (same_aside ▸ aside))).imp_right .inr
  · left
    unfold follow
    split
    · exact rests
    · rename_i task _
      dsimp only
      split
      · obtain ⟨queue, inbox, same⟩ := enqueue_eq { worker with front := none } task
        rw [same]
        exact rests
      · exact rests
  · rw [wake_closing closing]
    exact .inr (.inl rfl)
  · exact .inl rests
  · exact .inl rests
  · exact .inl rests

end TokenKeeper.Worker
