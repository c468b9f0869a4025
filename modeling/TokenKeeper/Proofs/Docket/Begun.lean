import TokenKeeper.Proofs.Docket.Continued
/-! Which submissions still begin. One that was given a delay does so in its own turn, if the
scheduler is open then, so after a shutdown it never does. -/
namespace TokenKeeper.Docket
variable {held : Option Task → Prop} {x x' : Docket} {n : Nat}

def Delayed (x : Docket) (n : Nat) : Prop := ∀ s, Task.begin ⟨s, n⟩ ∉ x.tasks

/-- Nothing but a start asks for a run without a delay. -/
theorem Turn.asks_at_once {task : Task} {added : Multiset Task} {scheduler : Scheduler}
    {upcoming : Call} (turn : x.Turn task added scheduler upcoming) {s : SchedulerId}
    (asks : Task.begin ⟨s, n⟩ ∈ added) :
    n = x.scheduler.accepted ∧ x.scheduler.started = false ∧ scheduler.started = true := by
  have other {next : Task} (number : next.number? = none) (same : Task.begin ⟨s, n⟩ ∈ ({next} :
      Multiset Task)) : False := by
    rw [Multiset.mem_singleton] at same
    rw [← same] at number
    cases number
  cases turn with
  | enter _ _ number => exact (other number asks).elim
  | wait => exact nomatch Multiset.mem_singleton.mp asks
  | pause pauses =>
    obtain ⟨-, still, -⟩ := Task.pausing?_run pauses
    exact (other (still _).1 asks).elim
  | resume pauses =>
    obtain ⟨-, -, number, -⟩ := Task.pausing?_run pauses
    exact (other number asks).elim
  | schedule =>
    obtain new | old := Multiset.mem_add.mp asks
    · exact nomatch Multiset.mem_singleton.mp new
    · exact (other rfl old).elim
  | start on first =>
    obtain new | old := Multiset.mem_add.mp asks
    · cases Multiset.mem_singleton.mp new
      exact ⟨rfl, first, rfl⟩
    · exact (other rfl old).elim
  | shutdown | inVain | call | endCall => exact (other rfl asks).elim
  | conclude => exact nomatch Multiset.mem_singleton.mp asks
  | enterDropped | abandon | leave | panic | concludeLast => exact nomatch asks

theorem Delayed.step (h : x.Delayed n) (step : Docket.Step held x x') :
    x'.Delayed n ∨ n = x.scheduler.accepted ∧ x.scheduler.started = false ∧
      x'.scheduler.started = true := by
  cases step with
  | tick | shut | drop | close => exact .inl h
  | work works => exact .inl fun s member => h s (works.tasks.mem member)
  | start on first left =>
    by_cases same : n = x.scheduler.accepted
    · exact .inr ⟨same, first, rfl⟩
    · refine .inl fun s member => ?_
      obtain hand | other := Multiset.mem_add.mp member
      · exact h s (Multiset.mem_add.mpr (.inl hand))
      · obtain new | old := Multiset.mem_add.mp (left.mem other)
        · cases Multiset.mem_singleton.mp new
          exact same rfl
        · exact h s (Multiset.mem_add.mpr (.inr old))
  | schedule _ left =>
    refine .inl fun s member => ?_
    obtain hand | other := Multiset.mem_add.mp member
    · exact h s (Multiset.mem_add.mpr (.inl hand))
    · obtain new | old := Multiset.mem_add.mp (left.mem other)
      · exact nomatch Multiset.mem_singleton.mp new
      · exact h s (Multiset.mem_add.mpr (.inr old))
  | @turn task added scheduler upcoming hand others mine turn leaves =>
    by_cases asked : ∃ s, Task.begin ⟨s, n⟩ ∈ added
    · obtain ⟨s, asks⟩ := asked
      exact .inr (turn.asks_at_once asks)
    · refine .inl fun s member => ?_
      obtain new | old := Multiset.mem_add.mp (leaves.left.mem member)
      · exact asked ⟨s, new⟩
      · exact h s (Multiset.mem_add.mpr (.inr old))

theorem Delayed.later (h : x.Delayed n) (accounts : x.Accounts)
    (later : Docket.Later held x x') : x'.Delayed n ∨ x.scheduler.accepted ≤ n ∧
      x.scheduler.started = false ∧ x'.scheduler.started = true := by
  induction later with
  | refl => exact .inl h
  | tail before step ih =>
    have ⟨accounts', continues⟩ := accounts.later before
    obtain still | ⟨le, first, started⟩ := ih
    · refine (still.step step).imp_right fun ⟨same, not_yet, started⟩ => ?_
      refine ⟨same ▸ continues.accepted, ?_, started⟩
      cases was : x.scheduler.started with
      | false => rfl
      | true => cases (continues.started was).symm.trans not_yet
    · exact .inr ⟨le, first, (step.continues accounts').started started⟩

theorem Turn.submissions {task : Task} {added : Multiset Task} {scheduler : Scheduler}
    {upcoming : Call} (turn : x.Turn task added scheduler upcoming) :
    scheduler.runs.map (·.submission) = x.scheduler.runs.map (·.submission) ∨
      ∃ submission, task.Begins x.now x.scheduler.isShutDown submission ∧
        scheduler.runs.map (·.submission) =
          x.scheduler.runs.map (·.submission) ++ [submission.number] := by
  cases turn with
  | @enter task submission next begins =>
    exact .inr ⟨submission, begins, by rw [Scheduler.enter, List.map_append]; rfl⟩
  | @enterDropped task submission begins =>
    refine .inr ⟨submission, begins, ?_⟩
    rw [Scheduler.endRun_submissions, Scheduler.enter, List.map_append]
    rfl
  | leave | panic | concludeLast => exact .inl (Scheduler.endRun_submissions ..)
  | conclude => exact .inl (Scheduler.endRun_submissions x.scheduler.accept ..)
  | _ => exact .inl rfl

structure Absent (x : Docket) (n : Nat) : Prop where
  off : x.scheduler.isShutDown = true
  delayed : x.Delayed n
  runs : n ∉ x.scheduler.runs.map (·.submission)

theorem Absent.step (h : x.Absent n) (accounts : x.Accounts) (step : Docket.Step held x x') :
    x'.Absent n := by
  obtain ⟨off, -, started⟩ := (step.continues accounts).shut h.off
  have delayed : x'.Delayed n := (h.delayed.step step).resolve_right
    fun ⟨_, unstarted, start⟩ => by cases (started.symm.trans start).symm.trans unstarted
  refine ⟨off, delayed, ?_⟩
  cases step with
  | tick | drop | close | shut | work => exact h.runs
  | start on | schedule on => cases h.off.symm.trans on
  | @turn task added scheduler upcoming hand others mine turn leaves =>
    obtain same | ⟨⟨s, m⟩, begins, more⟩ := turn.submissions
    · exact fun run => h.runs (same ▸ run)
    · rw [more, List.mem_append, List.mem_singleton, not_or]
      refine ⟨h.runs, ?_⟩
      rintro rfl
      cases begins with
      | waited _ on => cases h.off.symm.trans on
      | atOnce => exact h.delayed s (by rw [tasks, mine]; simp [Worker.Stage.tasks])

theorem Absent.later (h : x.Absent n) (accounts : x.Accounts) (later : Docket.Later held x x') :
    x'.Absent n := by
  induction later with
  | refl => exact h
  | tail before step ih => exact ih.step (accounts.later before).1 step

end TokenKeeper.Docket
