import TokenKeeper.Proofs.Succession.Aside
import TokenKeeper.Proofs.Succession.Called
/-! A job asks for its next run as the last thing it does, and nobody else asks. Then a scheduler
never has more to do than one thing: a run that is to begin, one that waits for its delay, or one
that goes on. Only between a run's last action and its end there are two. -/
namespace TokenKeeper
variable {program : Nat → List Action} {t t' : Instant}

namespace Task

theorem awaits?_mono {task : Task} {submission : Submission} {due : Instant}
    (waits : task.awaits? t = some (submission, due)) (le : t ≤ t') :
    ∃ due', task.awaits? t' = some (submission, due') ∧ due ≤ due' := by
  unfold awaits? at waits
  split at waits <;> cases waits
  · exact ⟨_, rfl, Nat.add_le_add_right le _⟩
  · exact ⟨due, rfl, le_rfl⟩

theorem awaits?_pausing? {task : Task} {waits : Submission × Instant}
    (h : task.awaits? t = some waits) : task.pausing? = none := by
  cases task <;> first | rfl | cases h

theorem pausing?_script {run : RunId} {actions : List Action} {pause : Pause}
    {still : Pause → Task} {next : Task}
    (pauses : (script run actions).pausing? = some (pause, still, next)) :
    ∃ first rest, actions = .pause first :: rest ∧
      still = (fun pause => .script run (.pause pause :: rest)) ∧ next = .script run rest := by
  cases actions with
  | nil => cases pauses
  | cons action rest => cases action with
    | pause =>
      cases pauses
      exact ⟨_, rest, rfl, rfl, rfl⟩
    | _ => cases pauses

end Task

theorem singleton_add_le {a b c : Task} {rest : Multiset Task} (le : {a} + rest ≤ {b} + {c}) :
    a = b ∧ rest ≤ {c} ∨ a = c ∧ rest ≤ {b} := by
  have member := Multiset.mem_of_le le (Multiset.mem_cons_self a rest)
  obtain same | same := Multiset.mem_add.mp member
  · obtain rfl := Multiset.mem_singleton.mp same
    exact .inl ⟨rfl, Multiset.le_of_add_le_add_left le⟩
  · obtain rfl := Multiset.mem_singleton.mp same
    exact .inr ⟨rfl, Multiset.le_of_add_le_add_left (le.trans (add_comm {b} {a}).le)⟩

theorem modify_there {l : List α} {i : Nat} {x : α} (hi : l[i]? = some x) (f : α → α) :
    (l.modify i f)[i]? = some (f x) :=
  (List.getElem?_modify_eq ..).trans (congrArg (Option.map f) hi)

namespace World
variable {w w' : World} {s : SchedulerId} {p : PoolId} {pool : Pool} {task : Task}
  {scheduler : Scheduler}

/-- What the scheduler has to do, at most. -/
inductive Standing (w : World) (s : SchedulerId) (program : Nat → List Action)
    (scheduler : Scheduler) : Prop where
  | nothing (live : w.live s = 0)
  | begins {submission} (live : w.live s ≤ {.begin submission})
      (free : Invites program scheduler.runs w.now)
  /-- After a shutdown the run is called off. -/
  | waits {task submission due} (live : w.live s ≤ {task})
      (waits : task.awaits? w.now = some (submission, due))
      (free : scheduler.isShutDown = false → Invites program scheduler.runs due)
  | goesOn {place actions} (live : w.live s ≤ {.script ⟨s, place⟩ actions})
      (last : scheduler.runs.length = place + 1)
      (remains : Action.Remains (program place) actions)
  /-- The last run has called the next one, and is still at the worker. -/
  | handsOn {place submission delay}
      (live : w.live s ≤ {.delayed submission delay} + {.script ⟨s, place⟩ []})
      (last : scheduler.runs.length = place + 1)
      (asks : (program place).getLast? = some (.schedule delay))
      (hand : scheduler.isShutDown = false → w.AtHand (.script ⟨s, place⟩ []))

structure InLine (w : World) (s : SchedulerId) (program : Nat → List Action)
    (scheduler : Scheduler) : Prop where
  there : w.schedulers[s]? = some scheduler
  job : scheduler.job = .script program
  unstarted : scheduler.started = false → scheduler.runs = [] ∧ w.live s = 0
  runs : Succession program w.now scheduler.runs
  standing : w.Standing s program scheduler

theorem Standing.stay (h : w.Standing s program scheduler) {after : Scheduler}
    (stays : scheduler.Stays after) (aside : Aside s w w') : w'.Standing s program after := by
  have still (on : after.isShutDown = false) : scheduler.isShutDown = false := by
    by_contra off
    cases on.symm.trans (stays.shut (eq_true_of_ne_false off))
  cases h with
  | nothing live => exact .nothing (Multiset.le_zero.mp (live ▸ aside.live))
  | begins live free =>
    exact .begins (aside.live.trans live) (stays.runs ▸ free.mono aside.now)
  | waits live waits free =>
    obtain ⟨due', waits', le⟩ := Task.awaits?_mono waits aside.now
    refine .waits (aside.live.trans live) waits' fun on => ?_
    exact stays.runs ▸ (free (still on)).mono le
  | goesOn live last remains =>
    exact .goesOn (aside.live.trans live) (stays.runs ▸ last) remains
  | handsOn live last asks hand =>
    refine .handsOn (aside.live.trans live) (stays.runs ▸ last) asks fun on => ?_
    exact aside.hand _ rfl (hand (still on))

theorem InLine.aside (h : w.InLine s program scheduler) (aside : Aside s w w') :
    ∃ after, w'.InLine s program after := by
  obtain ⟨after, there, stays⟩ := aside.scheduler scheduler h.there
  refine ⟨after, there, stays.job.trans h.job, fun first => ?_,
    stays.runs ▸ h.runs.mono aside.now, h.standing.stay stays aside⟩
  obtain ⟨runs, live⟩ := h.unstarted (stays.started.symm.trans first)
  exact ⟨stays.runs.trans runs, Multiset.le_zero.mp (live ▸ aside.live)⟩

structure Turn (w w' : World) (s : SchedulerId) (task : Task) (added rest : Multiset Task)
    (schedulers : List Scheduler) : Prop where
  now : w'.now = w.now
  there : w'.schedulers = schedulers
  deed : ∃ caches, Deed w task added schedulers caches
  before : w.live s = {task} + rest
  after : w'.live s ≤ added + rest
  /-- A request for a run does not take the worker away. -/
  hand : ∀ run delay actions, task = .script run (.schedule delay :: actions) →
    w'.AtHand (.script run actions)

theorem Does.turn (does : w.Does (w.carryOn p task) p task) (hp : w.pools[p]? = some pool)
    (stage : pool.worker.stage = .busy task) (mine : task.scheduler? = some s) :
    ∃ added rest schedulers, Turn w (w.carryOn p task) s task added rest schedulers := by
  obtain ⟨added, turned, deed⟩ := does
  obtain ⟨f, pools, carries⟩ := turned.pools
  obtain ⟨rest, was, is⟩ :=
    live_le_modify hp pools (Worker.tasks_busy stage) (carries pool hp).1.tasks.le s
  rw [Multiset.filter_singleton, if_pos mine] at was
  rw [Multiset.filter_eq_self.mpr fun next hn => (deed.scheduler? next hn).trans mine] at is
  refine ⟨added, rest, _, turned.apart.now, rfl, ⟨_, deed⟩, was, is, ?_⟩
  rintro run delay actions rfl
  have hp' := (congrArg (·[p]?) pools).trans (List.getElem?_modify_eq ..)
  rw [hp] at hp'
  exact ⟨p, f pool, hp', setStage_stage hp'⟩

namespace Turn
variable {added rest : Multiset Task} {schedulers : List Scheduler}

theorem live_alone (turn : Turn w w' s task added 0 schedulers) : w'.live s ≤ added :=
  turn.after.trans (add_zero added).le

theorem live_gone (turn : Turn w w' s task 0 rest schedulers) : w'.live s ≤ rest :=
  turn.after.trans (zero_add rest).le

end Turn

/-- The worker of an open scheduler's pool is at one of its tasks at most. -/
theorem Sound.sole_hand (sound : w.Sound) (hs : w.schedulers[s]? = some scheduler)
    (on : scheduler.isShutDown = false) {other : Task} (mine : task.scheduler? = some s)
    (own : other.scheduler? = some s) (hand : w.AtHand task) (hand' : w.AtHand other) :
    task = other := by
  obtain ⟨home, on⟩ := Scheduler.not_isShutDown_iff.mp on
  have here {q : PoolId} {pool : Pool} {task : Task} (hq : w.pools[q]? = some pool)
      (stage : pool.worker.stage = .busy task) (mine : task.scheduler? = some s) : home = q := by
    have there : task ∈ pool.worker.tasks := by rw [Worker.tasks_busy stage]; simp
    exact (sound.tasks q pool hq task there).2 s scheduler home mine hs on
  obtain ⟨p, pool, hp, stage⟩ := hand
  obtain ⟨q, pool', hq, stage'⟩ := hand'
  obtain rfl := here hp stage mine
  obtain rfl := here hq stage' own
  cases hp.symm.trans hq
  cases stage.symm.trans stage'
  rfl

namespace InLine
variable {added rest : Multiset Task} {schedulers : List Scheduler}

theorem started (h : w.InLine s program scheduler) (busy : w.live s = {task} + rest) :
    scheduler.started = true := by
  by_contra unstarted
  have nothing := (h.unstarted (eq_false_of_ne_true unstarted)).2
  rw [busy] at nothing
  exact Multiset.cons_ne_zero nothing

theorem of_turn (h : w.InLine s program scheduler) (turn : Turn w w' s task added rest schedulers)
    {after : Scheduler} (there : schedulers[s]? = some after) (job : after.job = scheduler.job)
    (started : after.started = scheduler.started) (runs : Succession program w.now after.runs)
    (standing : w'.Standing s program after) : w'.InLine s program after := by
  refine ⟨turn.there ▸ there, job.trans h.job, fun unstarted => ?_, ?_, standing⟩
  · cases (started.trans (h.started turn.before)).symm.trans unstarted
  · rw [turn.now]
    exact runs

theorem not_refresh (h : w.InLine s program scheduler) {submission : Submission} {c : CacheId}
    (mine : submission.scheduler = s) {other : Scheduler}
    (hs : w.schedulers[submission.scheduler]? = some other) : other.job ≠ .refresh c := by
  subst mine
  cases hs.symm.trans h.there
  rw [h.job]
  exact nofun

theorem turn_enters (h : w.InLine s program scheduler) {submission : Submission}
    {program' : Nat → List Action} {other : Scheduler} (mine : submission.scheduler = s)
    (hs : w.schedulers[submission.scheduler]? = some other) (job : other.job = .script program')
    (turn : Turn w w' s task
      {.script ⟨submission.scheduler, other.runs.length⟩ (program' other.runs.length)} 0
      (w.schedulers.modify submission.scheduler (·.enter submission.number w.now)))
    (free : Invites program scheduler.runs w.now) : ∃ after, w'.InLine s program after := by
  subst mine
  cases hs.symm.trans h.there
  cases job.symm.trans h.job
  exact ⟨_, h.of_turn turn (modify_there hs _) rfl rfl (h.runs.enter free _)
    (.goesOn turn.live_alone List.length_append .refl)⟩

theorem turn_begins (h : w.InLine s program scheduler) {submission : Submission}
    (turn : Turn w w' s (.begin submission) added 0 schedulers) (mine : submission.scheduler = s)
    (free : Invites program scheduler.runs w.now) : ∃ after, w'.InLine s program after := by
  obtain ⟨caches, deed⟩ := turn.deed
  cases deed with
  | enterScript begins hs job =>
    cases begins with
    | atOnce => exact h.turn_enters mine hs job turn free
    | waited waits => cases waits
  | enterRefresh begins hs job | enterDropped begins hs job =>
    cases begins with
    | atOnce => cases h.not_refresh mine hs job
    | waited waits => cases waits
  | abandon waits | wait waits => cases waits
  | pause pauses | resume pauses => cases pauses

theorem turn_waits (h : w.InLine s program scheduler) (turn : Turn w w' s task added 0 schedulers)
    (mine : task.scheduler? = some s) {submission : Submission} {due : Instant}
    (waits : task.awaits? w.now = some (submission, due))
    (free : scheduler.isShutDown = false → Invites program scheduler.runs due) :
    ∃ after, w'.InLine s program after := by
  have own : submission.scheduler = s :=
    Option.some.inj ((Task.awaits?_scheduler waits).symm.trans mine)
  have on (on : w.isCalledOff submission = false) : scheduler.isShutDown = false := by
    rw [isCalledOff, own, h.there] at on
    exact on
  have live := turn.live_alone
  obtain ⟨caches, deed⟩ := turn.deed
  cases deed with
  | abandon waits' off =>
    cases waits.symm.trans waits'
    subst own
    exact ⟨_, h.of_turn turn (modify_there h.there _) rfl rfl
      h.runs (.nothing (Multiset.le_zero.mp live))⟩
  | wait waits' on' =>
    cases waits.symm.trans waits'
    exact ⟨scheduler, h.of_turn turn h.there rfl rfl h.runs (.waits live rfl free)⟩
  | enterScript begins hs job =>
    cases begins with
    | atOnce => cases waits
    | waited waits' on' lapsed =>
      cases waits.symm.trans waits'
      exact h.turn_enters own hs job turn ((free (on on')).mono lapsed)
  | enterRefresh begins hs job | enterDropped begins hs job =>
    have same := begins.scheduler?.symm.trans mine
    cases h.not_refresh (Option.some.inj same) hs job
  | pause pauses | resume pauses => cases (Task.awaits?_pausing? waits).symm.trans pauses
  | _ => cases waits

theorem turn_goesOn (h : w.InLine s program scheduler) {place : Nat} {actions : List Action}
    (turn : Turn w w' s (.script ⟨s, place⟩ actions) added 0 schedulers)
    (last : scheduler.runs.length = place + 1)
    (remains : Action.Remains (program place) actions)
    (asksLast : Action.AsksLast (program place)) : ∃ after, w'.InLine s program after := by
  have live := turn.live_alone
  obtain ⟨caches, deed⟩ := turn.deed
  cases deed with
  | enterScript begins | enterRefresh begins | enterDropped begins =>
    cases begins with | waited waits => cases waits
  | abandon waits | wait waits => cases waits
  | pause pauses =>
    obtain ⟨pause, rest, rfl, rfl, rfl⟩ := Task.pausing?_script pauses
    exact ⟨scheduler, h.of_turn turn h.there rfl rfl h.runs
      (.goesOn live last (remains.tail .begin))⟩
  | resume pauses =>
    obtain ⟨pause, rest, rfl, rfl, rfl⟩ := Task.pausing?_script pauses
    exact ⟨scheduler, h.of_turn turn h.there rfl rfl h.runs
      (.goesOn live last (remains.tail (.done nofun)))⟩
  | leave =>
    have runs := h.runs.endRun last fun _ same => (Ending.returned.inj same).symm
    exact ⟨_, h.of_turn turn (modify_there h.there _) rfl rfl runs
      (.nothing (Multiset.le_zero.mp live))⟩
  | panic =>
    exact ⟨_, h.of_turn turn (modify_there h.there _) rfl rfl (h.runs.endRun last nofun)
      (.nothing (Multiset.le_zero.mp live))⟩
  | @schedule _ delay rest =>
    -- Nothing is left to do but to return.
    obtain rfl : rest = [] := asksLast.remains remains [] delay rest rfl nofun
    exact ⟨_, h.of_turn turn (modify_there h.there _) rfl rfl h.runs
      (.handsOn live last (remains.getLast? rfl) fun _ => turn.hand _ delay [] rfl)⟩
  | start hs _ _ first =>
    cases hs.symm.trans h.there
    cases (h.started turn.before).symm.trans first
  | shutdown =>
    exact ⟨_, h.of_turn turn (modify_there h.there _) rfl rfl h.runs
      (.goesOn live last (remains.tail (.done nofun)))⟩
  | inVain _ kind =>
    refine ⟨scheduler, h.of_turn turn h.there rfl rfl h.runs
      (.goesOn live last (remains.tail (.done ?_)))⟩
    rintro rfl
    simp at kind

theorem turn_handsOn (h : w.InLine s program scheduler) {place : Nat}
    {submission : Submission} {delay : Span}
    (turn : Turn w w' s (.script ⟨s, place⟩ []) added rest schedulers)
    (live : rest ≤ {.delayed submission delay}) (last : scheduler.runs.length = place + 1)
    (asks : (program place).getLast? = some (.schedule delay)) :
    ∃ after, w'.InLine s program after := by
  obtain ⟨caches, deed⟩ := turn.deed
  cases deed with
  | leave =>
    have runs := h.runs.endRun last fun _ same => (Ending.returned.inj same).symm
    refine ⟨_, h.of_turn turn (modify_there h.there _) rfl rfl runs
      (.waits (turn.live_gone.trans live) rfl fun _ => ?_)⟩
    rw [turn.now]
    exact .endRun last asks w.now
  | enterScript begins | enterRefresh begins | enterDropped begins =>
    cases begins with | waited waits => cases waits
  | abandon waits | wait waits => cases waits
  | pause pauses | resume pauses => cases pauses

/-- After a shutdown the run that has been called is called off, whatever becomes of the one that
has called it. -/
theorem turn_calledOff (h : w.InLine s program scheduler) {place : Nat}
    {submission : Submission} {delay : Span} (off : scheduler.isShutDown = true)
    (turn : Turn w w' s (.delayed submission delay) added rest schedulers)
    (mine : submission.scheduler = s) (live : rest ≤ {.script ⟨s, place⟩ []})
    (last : scheduler.runs.length = place + 1)
    (asks : (program place).getLast? = some (.schedule delay)) :
    ∃ after, w'.InLine s program after := by
  subst mine
  have calledOff : w.isCalledOff submission = true := by
    rw [isCalledOff, h.there]
    exact off
  obtain ⟨caches, deed⟩ := turn.deed
  cases deed with
  | abandon waits =>
    cases waits
    have less : w'.live submission.scheduler ≤ {.delayed submission delay} + _ :=
      (turn.live_gone.trans live).trans (Multiset.le_add_left _ _)
    exact ⟨_, h.of_turn turn (modify_there h.there _) rfl rfl h.runs
      (.handsOn less last asks fun on => by cases on.symm.trans off)⟩
  | wait waits on =>
    cases waits
    cases on.symm.trans calledOff
  | enterScript begins | enterRefresh begins | enterDropped begins =>
    cases begins with
    | waited waits on =>
      cases waits
      cases on.symm.trans calledOff
  | pause pauses | resume pauses => cases pauses

theorem turn (h : w.InLine s program scheduler) (sound : w.Sound)
    (asksLast : ∀ k, Action.AsksLast (program k)) (hp : w.pools[p]? = some pool)
    (stage : pool.worker.stage = .busy task) (mine : task.scheduler? = some s)
    (turn : Turn w w' s task added rest schedulers) : ∃ after, w'.InLine s program after := by
  have only {other : Task} (live : w.live s ≤ {other}) : task = other ∧ rest = 0 := by
    rw [turn.before] at live
    have member := Multiset.mem_of_le live (Multiset.mem_cons_self task rest)
    obtain rfl := Multiset.mem_singleton.mp member
    have none : rest ≤ 0 := Multiset.le_of_add_le_add_left (live.trans (add_zero _).ge)
    exact ⟨rfl, Multiset.le_zero.mp none⟩
  cases h.standing with
  | nothing live => exact absurd (turn.before.symm.trans live) (Multiset.cons_ne_zero ·)
  | begins live free =>
    obtain ⟨rfl, rfl⟩ := only live
    exact h.turn_begins turn (Option.some.inj mine) free
  | waits live waits free =>
    obtain ⟨rfl, rfl⟩ := only live
    exact h.turn_waits turn mine waits free
  | goesOn live last remains =>
    obtain ⟨rfl, rfl⟩ := only live
    exact h.turn_goesOn turn last remains (asksLast _)
  | handsOn live last asks hand =>
    rw [turn.before] at live
    obtain ⟨rfl, left⟩ | ⟨rfl, left⟩ := singleton_add_le live
    · cases off : scheduler.isShutDown with
      | true => exact h.turn_calledOff off turn (Option.some.inj mine) left last asks
      | false =>
        cases sound.sole_hand h.there off mine rfl ⟨p, pool, hp, stage⟩ (hand off)
    · exact h.turn_handsOn turn left last asks

theorem start (h : w.InLine s program scheduler) (first : scheduler.started = false)
    (there : w'.schedulers[s]? = some { scheduler.accept with started := true })
    (live : w'.live s ≤ {.begin ⟨s, scheduler.accepted⟩} + w.live s) :
    ∃ after, w'.InLine s program after := by
  obtain ⟨runs, none⟩ := h.unstarted first
  rw [none, add_zero] at live
  have fresh : ({ scheduler.accept with started := true } : Scheduler).runs = [] := runs
  refine ⟨_, there, h.job, nofun, ?_, .begins live ?_⟩ <;> rw [fresh]
  · exact .nil program _
  · exact .nil program _

end InLine

theorem InLine.step (h : w.InLine s program scheduler) (sound : w.Sound)
    (asksLast : ∀ k, Action.AsksLast (program k)) (step : Unprompted s w w') :
    ∃ after, w'.InLine s program after := by
  cases step.effect sound h.there h.job with
  | aside aside => exact h.aside aside
  | start first after live => exact h.start first after live
  | turn hp stage mine does goes =>
    subst goes
    obtain ⟨added, rest, schedulers, turn⟩ := does.turn hp stage mine
    exact h.turn sound asksLast hp stage mine turn

theorem InLine.later (h : w.InLine s program scheduler) (sound : w.Sound)
    (asksLast : ∀ k, Action.AsksLast (program k))
    (later : Relation.ReflTransGen (Unprompted s) w w') :
    w'.Sound ∧ ∃ after, w'.InLine s program after := by
  induction later with
  | refl => exact ⟨sound, scheduler, h⟩
  | tail _ step ih =>
    obtain ⟨sound', after, h'⟩ := ih
    exact ⟨step.toStep.sound sound', h'.step sound' asksLast step⟩

theorem Sound.inLine (sound : w.Sound) (p : PoolId) (program : Nat → List Action) :
    (w.addScheduler p (.script program)).2.InLine w.schedulers.length program
      { job := .script program, pool := some p } := by
  have nothing : (w.addScheduler p (.script program)).2.live w.schedulers.length = 0 := by
    refine Multiset.filter_eq_nil.mpr fun task ht mine => ?_
    obtain ⟨q, pool, hq, member⟩ := mem_tasks.mp ht
    obtain ⟨scheduler, hs⟩ := (sound.tasks q pool hq task member).1.scheduler mine
    simp at hs
  exact ⟨List.getElem?_concat_length, rfl, fun _ => ⟨rfl, nothing⟩, .nil program _,
    .nothing nothing⟩

end World
end TokenKeeper
