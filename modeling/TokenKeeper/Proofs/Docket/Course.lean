import TokenKeeper.Proofs.Docket.Agenda
/-! A run that has begun takes its course. Whatever happens to its scheduler, it does what it still
has to do, no sooner than its pauses allow and later by no more than the time for which others hold
the worker. -/
namespace TokenKeeper

def Worker.Stage.goesOn (stage : Worker.Stage Task) (now : Instant) (task : Task) : Instant :=
  match stage with
  | .held next till => if next = task then till else now
  | .busy _ | .free | .idle | .between | .gone => now

namespace Worker.Stage
variable {stage : Worker.Stage Task} {now : Instant} {task : Task}

theorem goesOn_held (now till : Instant) (task : Task) :
    (held task till).goesOn now task = till := if_pos rfl

theorem goesOn_now (other : ∀ till, stage ≠ .held task till) : stage.goesOn now task = now := by
  cases stage with
  | held next till => exact if_neg fun same : next = task => other till (by rw [same])
  | busy | free | idle | between | gone => rfl

theorem of_goesOn {s : SchedulerId} (mine : task.scheduler? = some s) :
    (stage.of s).goesOn now task = stage.goesOn now task := by
  by_cases holds : ∃ till, stage = .held task till
  · obtain ⟨till, rfl⟩ := holds
    rw [of_held.mpr ⟨rfl, mine⟩]
  · rw [goesOn_now fun till same => holds ⟨till, same⟩]
    exact goesOn_now fun till same => holds ⟨till, (of_held.mp same).1⟩

theorem goesOn_busy (next : Task) : (busy next : Worker.Stage Task).goesOn now task = now := rfl

end Worker.Stage

structure Within (due : Instant) (delay : Span) (time : Instant) : Prop where
  early : due ≤ time
  late : time ≤ due + delay

theorem Within.widen {due time : Instant} {delay : Span} (h : Within due delay time) (more : Span) :
    Within due (delay + more) time :=
  ⟨h.early, h.late.trans (Nat.add_le_add_left (Nat.le_add_right delay more) due)⟩

/-- The run has ended as its actions have it, and returned when they were done. -/
def Ending.Of (actions : List Action) (due : Instant) (delay : Span) : Ending → Prop
  | .returned time => Action.panic ∉ actions ∧ Within due delay time
  | .panicked => Action.panic ∈ actions

namespace Docket
variable {held : Option Task → Prop} {x x' : Docket} {k : Nat} {task : Task}
  {actions : List Action} {due : Instant} {delay : Span}

def Only (k : Nat) (holder : Option Task) : Prop :=
  ∃ task, holder = some task ∧ task.place? = some k

theorem of_at_hand (ht : task ∈ x.hand.tasks) :
    x.hand = .busy task ∨ ∃ free, x.hand = .held task free := by
  cases hand : x.hand with
  | busy next =>
    rw [hand] at ht
    exact .inl (by rw [Multiset.mem_singleton.mp ht])
  | held next free =>
    rw [hand] at ht
    exact .inr ⟨free, by rw [Multiset.mem_singleton.mp ht]⟩
  | _ =>
    rw [hand] at ht
    exact absurd ht (Multiset.notMem_zero _)

/-- A task holds the worker until a time to come. -/
def Punctual (x : Docket) : Prop := ∀ task free, x.hand = .held task free → x.now ≤ free

theorem Fresh.punctual (fresh : x.Fresh) : x.Punctual := fun _ _ hand => by
  cases fresh.hand.symm.trans hand

theorem Punctual.step (h : x.Punctual) (step : Docket.Step held x x') : x'.Punctual := by
  cases step with
  | tick _ _ free => exact fun task t hand => (free task t hand).2
  | turn mine turn leaves =>
    intro task t hand
    obtain ⟨length, -, -, rfl⟩ := leaves.free task t hand
    exact Nat.le_add_right _ _
  | work works => exact fun task t hand => h task t (works.free task t hand)
  | start | schedule | shut | drop | close => exact h

theorem Punctual.later (h : x.Punctual) (later : Docket.Later held x x') : x'.Punctual := by
  induction later with
  | refl => exact h
  | tail _ step ih => exact ih.step step

theorem Punctual.now_le (h : x.Punctual) (task : Task) : x.now ≤ x.hand.goesOn x.now task := by
  by_cases holds : ∃ free, x.hand = .held task free
  · obtain ⟨free, hand⟩ := holds
    rw [hand, Worker.Stage.goesOn_held]
    exact h task free hand
  · rw [Worker.Stage.goesOn_now fun free hand => holds ⟨free, hand⟩]

/-- A run that goes on has a task, unless the pool has been torn down. -/
theorem Accounts.exists_task (h : x.Accounts) (on : x.closing = false) {run : Run}
    (hr : x.scheduler.runs[k]? = some run) (goes : run.ending = none) :
    ∃ task ∈ x.tasks, task.place? = some k := by
  have member : k ∈ x.tasks.filterMap Task.place? := by
    rw [h.places.eq on]
    exact Scheduler.mem_unended.mpr ⟨run, hr, goes⟩
  exact (Multiset.mem_filterMap _ _).mp member

/-- A run has one task at most. -/
theorem Accounts.filter_place (h : x.Accounts) (ht : task ∈ x.tasks)
    (place : task.place? = some k) : x.tasks.filter (·.place? = some k) = {task} := by
  obtain ⟨rest, split⟩ := Multiset.exists_cons_of_mem ht
  have nodup := Multiset.nodup_of_le h.places.le (Scheduler.nodup_unended _)
  rw [split, Multiset.filterMap_cons_some _ _ _ place, Multiset.nodup_cons] at nodup
  have none_other : rest.filter (·.place? = some k) = 0 := Multiset.filter_eq_nil.mpr
    fun other ho same => nodup.1 ((Multiset.mem_filterMap _ _).mpr ⟨other, ho, same⟩)
  rw [split, Multiset.filter_cons, if_pos place, none_other]
  rfl

theorem Accounts.only (h : x.Accounts) (ht : task ∈ x.tasks) (place : task.place? = some k)
    {other : Task} (ho : other ∈ x.tasks) (same : other.place? = some k) : other = task := by
  have member : other ∈ x.tasks.filter (·.place? = some k) := Multiset.mem_filter.mpr ⟨ho, same⟩
  rw [h.filter_place ht place] at member
  exact Multiset.mem_singleton.mp member

theorem Accounts.apart (h : x.Accounts) {other : Task} (ht : task ∈ x.hand.tasks)
    (place : task.place? = some k) (ho : other ∈ x.others) : other.place? ≠ some k := by
  have nodup := Multiset.nodup_of_le h.places.le (Scheduler.nodup_unended _)
  rw [tasks, Multiset.filterMap_add, Multiset.nodup_add] at nodup
  intro same
  exact Multiset.disjoint_left.mp nodup.2.2 ((Multiset.mem_filterMap _ _).mpr ⟨task, ht, place⟩)
    ((Multiset.mem_filterMap _ _).mpr ⟨other, ho, same⟩)

/-- The run at the place has these actions before it, and is done with them when they are due or
that much later. -/
structure Course (x : Docket) (k : Nat) (actions : List Action) (due : Instant) (delay : Span) :
    Prop where
  begun : k < x.scheduler.runs.length
  ended : ∀ run ending, x.scheduler.runs[k]? = some run → run.ending = some ending →
    ending.Of actions due delay
  goes : ∀ task ∈ x.tasks, task.place? = some k →
    Action.Remains actions (task.actions x.upcoming) ∧
      Within due delay (Action.doneAt (task.actions x.upcoming) (x.hand.goesOn x.now task))

theorem Course.widen (h : x.Course k actions due delay) (more : Span) :
    x.Course k actions due (delay + more) := by
  refine ⟨h.begun, fun run ending hr ended => ?_, fun task ht place => ?_⟩
  · have how := h.ended run ending hr ended
    cases ending with
    | returned time => exact ⟨how.1, how.2.widen more⟩
    | panicked => exact how
  · obtain ⟨remains, on_time⟩ := h.goes task ht place
    exact ⟨remains, on_time.widen more⟩

theorem Course.keep (h : x.Course k actions due delay)
    (runs : x'.scheduler.runs[k]? = x.scheduler.runs[k]?)
    (tasks : ∀ task ∈ x'.tasks, task.place? = some k → task ∈ x.tasks ∧
      x'.upcoming = x.upcoming ∧ x'.hand.goesOn x'.now task = x.hand.goesOn x.now task) :
    x'.Course k actions due delay := by
  have begun := runs.trans (List.getElem?_eq_getElem h.begun)
  refine ⟨(List.getElem?_eq_some_iff.mp begun).1,
    fun run ending hr => h.ended run ending (runs ▸ hr), fun task ht place => ?_⟩
  obtain ⟨old, upcoming, free⟩ := tasks task ht place
  rw [upcoming, free]
  exact h.goes task old place

/-- Time goes by. The run is no later for it that holds the worker or rests meanwhile. -/
theorem Course.tick (h : x.Course k actions due delay) (accounts : x.Accounts) {t : Instant}
    {more : Span} (later : x.now ≤ t) (rests : ∀ task, x.hand ≠ .busy task)
    (waits : t ≤ x.now + more ∨ (∃ task free, x.hand = .held task free ∧ task.place? = some k) ∨
      ∀ task ∈ x.others, ∃ due, task.due? = some due ∧ x.now < due ∧ t ≤ due) :
    ({ x with now := t } : Docket).Course k actions due (delay + more) := by
  have wide := h.widen more
  refine ⟨wide.begun, wide.ended, fun task ht place => ?_⟩
  have ⟨remains, on_time⟩ := h.goes task ht place
  refine ⟨remains, ?_⟩
  dsimp only
  obtain at_hand | other := Multiset.mem_add.mp (show task ∈ x.hand.tasks + x.others from ht)
  · obtain busy | ⟨free, hand⟩ := of_at_hand at_hand
    · exact absurd busy (rests task)
    · rw [hand, Worker.Stage.goesOn_held] at on_time ⊢
      exact on_time.widen more
  · have unheld : ∀ free, x.hand ≠ .held task free := fun free hand =>
      accounts.apart (by rw [hand]; exact Multiset.mem_singleton_self task) place other place
    rw [Worker.Stage.goesOn_now unheld] at on_time ⊢
    obtain soon | ⟨holder, free, hand, mine⟩ | due := waits
    · refine ⟨on_time.early.trans (Action.doneAt_mono _ later), ?_⟩
      calc Action.doneAt (task.actions x.upcoming) t
        _ ≤ Action.doneAt (task.actions x.upcoming) (x.now + more) := Action.doneAt_mono _ soon
        _ ≤ Action.doneAt (task.actions x.upcoming) x.now + more := Action.doneAt_add_le ..
        _ ≤ due + delay + more := Nat.add_le_add_right on_time.late more
        _ = due + (delay + more) := add_assoc ..
    · refine absurd place (accounts.apart ?_ mine other)
      rw [hand]
      exact Multiset.mem_singleton_self holder
    · obtain ⟨end', hd, ahead, le⟩ := due task other
      rw [Task.doneAt_of_due hd x.upcoming place le,
        ← Task.doneAt_of_due hd x.upcoming place ahead.le]
      exact on_time.widen more

theorem Course.goOn (h : x.Course k actions due delay) (accounts : x.Accounts)
    {added others : Multiset Task} {scheduler : Scheduler} {hand : Worker.Stage Task}
    {upcoming : Call} (mine : x.hand = .busy task) (place : task.place? = some k)
    (turn : x.Turn task added scheduler upcoming) (leaves : x.Leaves task added hand others) :
    Course ⟨x.now, scheduler, hand, others, x.closing, upcoming⟩ k actions due delay := by
  have at_hand : task ∈ x.hand.tasks := by
    rw [mine]
    exact Multiset.mem_singleton_self task
  have here := Multiset.mem_add.mpr (.inl at_hand : task ∈ x.hand.tasks ∨ task ∈ x.others)
  have ⟨remains, on_time⟩ := h.goes task here place
  rw [mine, Worker.Stage.goesOn_busy] at on_time
  have known : ∀ next ∈ hand.tasks + others, next.place? = some k → next ∈ added := by
    intro next hn same
    obtain new | old := Multiset.mem_add.mp (leaves.left.mem hn)
    · exact new
    · exact absurd same (accounts.apart at_hand place old)
  cases turn.goes place with
  | on next only runs remains' same_end free =>
    refine ⟨runs ▸ h.begun, fun run ending hr => h.ended run ending (runs ▸ hr),
      fun other ho same => ?_⟩
    obtain rfl := only other (known other ho same) same
    refine ⟨remains.trans remains', ?_⟩
    have now : hand.goesOn x.now other = x.now := by
      by_cases holds : ∃ t, hand = .held other t
      · obtain ⟨t, rfl⟩ := holds
        obtain ⟨length, still, pauses, rfl⟩ := leaves.free other t rfl
        rw [Worker.Stage.goesOn_held, free length still pauses]
        rfl
      · exact Worker.Stage.goesOn_now fun t hand => holds ⟨t, hand⟩
    dsimp only
    rw [now, same_end]
    exact on_time
  | holds next only runs remains' length still pauses positive same_end =>
    refine ⟨runs ▸ h.begun, fun run ending hr => h.ended run ending (runs ▸ hr),
      fun other ho same => ?_⟩
    obtain rfl := only other (known other ho same) same
    dsimp only
    rw [leaves.holds length still other pauses positive, Worker.Stage.goesOn_held]
    exact ⟨remains.trans remains', same_end.symm ▸ on_time⟩
  | ends ending none_left runs how =>
    refine ⟨?_, fun run ending' hr he => ?_, fun other ho same => ?_⟩
    · rw [runs, Scheduler.endRun, List.length_modify]
      exact h.begun
    · rw [runs, Scheduler.endRun, List.getElem?_modify_eq] at hr
      obtain ⟨before, -, rfl⟩ := Option.map_eq_some_iff.mp hr
      cases he
      obtain ⟨rfl, done⟩ | ⟨rfl, rest, panics⟩ := how
      · rw [done] at remains on_time
        exact ⟨fun panics => List.not_mem_nil (remains.panic.mpr panics), on_time⟩
      · rw [panics] at remains
        exact remains.panic.mp (List.mem_cons_self ..)
    · exact absurd same (none_left other (known other ho same))

theorem Turn.place {added : Multiset Task} {scheduler : Scheduler} {upcoming : Call}
    (turn : x.Turn task added scheduler upcoming) {next : Task} (hn : next ∈ added)
    (place : next.place? = some k) : task.place? = some k ∨ k = x.scheduler.runs.length := by
  by_cases new : k = x.scheduler.runs.length
  · exact .inr new
  · refine .inl ?_
    cases turn with
    | enter _ fresh =>
      rw [Multiset.mem_singleton.mp hn, fresh] at place
      exact absurd (Option.some.inj place).symm new
    | wait => cases Multiset.mem_singleton.mp hn; cases place
    | pause pauses =>
      obtain ⟨-, still, -⟩ := Task.pausing?_run pauses
      rw [Multiset.mem_singleton.mp hn] at place
      exact (still _).2.symm.trans place
    | resume pauses =>
      obtain ⟨-, -, -, same⟩ := Task.pausing?_run pauses
      rw [Multiset.mem_singleton.mp hn] at place
      exact same.symm.trans place
    | schedule | start =>
      obtain same | same := Multiset.mem_add.mp hn <;> cases Multiset.mem_singleton.mp same
      · cases place
      · exact place
    | shutdown | inVain | call | endCall => cases Multiset.mem_singleton.mp hn; exact place
    | conclude => cases Multiset.mem_singleton.mp hn; cases place
    | enterDropped | abandon | leave | panic | concludeLast => cases hn

theorem Turn.run_other {added : Multiset Task} {scheduler : Scheduler} {upcoming : Call}
    (turn : x.Turn task added scheduler upcoming) (other : task.place? ≠ some k)
    (begun : k < x.scheduler.runs.length) :
    scheduler.runs[k]? = x.scheduler.runs[k]? ∧ (upcoming = x.upcoming ∨ x.others = 0) := by
  have ends {scheduler : Scheduler} {run : RunId} {ending : Ending}
      (runs : scheduler.runs = x.scheduler.runs) (elsewhere : some run.place ≠ some k) :
      (scheduler.endRun run.place ending).runs[k]? = x.scheduler.runs[k]? := by
    rw [Scheduler.endRun, runs]
    exact List.getElem?_modify_ne _ _ fun same => elsewhere (congrArg some same)
  cases turn with
  | enter => exact ⟨List.getElem?_append_left begun, .inl rfl⟩
  | enterDropped =>
    refine ⟨?_, .inl rfl⟩
    rw [Scheduler.endRun]
    exact (List.getElem?_modify_ne _ _ begun.ne').trans (List.getElem?_append_left begun)
  | leave | panic | conclude | concludeLast => exact ⟨ends rfl other, .inl rfl⟩
  | call alone => exact ⟨rfl, .inr alone⟩
  | abandon | wait | pause | resume | schedule | start | shutdown | inVain | endCall =>
    exact ⟨rfl, .inl rfl⟩

/-- Who holds the worker or how long the step takes, says how much later the run is for it. -/
theorem Course.step (h : x.Course k actions due delay) (accounts : x.Accounts)
    (punctual : x.Punctual) (step : Docket.Step held x x') (more : Span)
    (holds : (∀ holder, held holder → Only k holder) ∨ x'.now ≤ x.now + more) :
    x'.Course k actions due (delay + more) := by
  cases step with
  | tick later rests free waits =>
    refine h.tick accounts later rests ?_
    obtain own | soon := holds
    · right
      obtain nobody | ⟨task, free, hand, holder⟩ | waits := waits
      · obtain ⟨_, none, -⟩ := own _ nobody
        cases none
      · obtain ⟨_, same, place⟩ := own _ holder
        cases same
        exact .inl ⟨task, free, hand, place⟩
      · exact .inr waits
    · exact .inl soon
  | @turn task added scheduler upcoming hand others mine turn leaves =>
    refine Course.widen ?_ more
    -- The step of another run leaves this one where it was: it has one task, which is not new.
    by_cases place : task.place? = some k
    · exact h.goOn accounts mine place turn leaves
    · obtain ⟨runs, same⟩ := turn.run_other place h.begun
      refine h.keep runs fun next hn at_place => ?_
      have old : next ∈ x.others := by
        obtain new | old := Multiset.mem_add.mp (leaves.left.mem hn)
        · obtain own | fresh := turn.place new at_place
          · exact absurd own place
          · exact absurd fresh h.begun.ne
        · exact old
      refine ⟨Multiset.mem_add.mpr (.inr old), same.resolve_right fun none => ?_, ?_⟩
      · rw [none] at old
        exact absurd old (Multiset.notMem_zero next)
      · rw [mine, Worker.Stage.goesOn_busy]
        refine Worker.Stage.goesOn_now fun t hand => place ?_
        obtain ⟨length, still, pauses, -⟩ := leaves.free next t hand
        exact (Task.pausing?_run pauses).2.2.2.symm.trans at_place
  | @work hand others works =>
    refine Course.widen ?_ more
    refine h.keep rfl fun task ht _ => ⟨works.tasks.mem ht, rfl, ?_⟩
    dsimp only
    by_cases holds : ∃ free, x.hand = .held task free
    · obtain ⟨free, held⟩ := holds
      obtain same | ⟨busy, le⟩ := works.lets task free held
      · rw [same]
      · rw [busy, Worker.Stage.goesOn_busy, held, Worker.Stage.goesOn_held]
        exact le_antisymm (punctual task free held) le
    · rw [Worker.Stage.goesOn_now fun free hand => holds ⟨free, hand⟩]
      exact Worker.Stage.goesOn_now fun free hand => holds ⟨free, works.free task free hand⟩
  | start _ _ left | schedule _ left =>
    refine Course.widen ?_ more
    refine h.keep rfl fun task ht place => ⟨?_, rfl, rfl⟩
    obtain at_hand | other := Multiset.mem_add.mp ht
    · exact Multiset.mem_add.mpr (.inl at_hand)
    · obtain new | old := Multiset.mem_add.mp (left.mem other)
      · cases Multiset.mem_singleton.mp new
        cases place
      · exact Multiset.mem_add.mpr (.inr old)
  | shut | drop | close =>
    refine Course.widen ?_ more
    exact h.keep rfl fun task ht _ => ⟨ht, rfl, rfl⟩

theorem Step.now_le (step : Docket.Step held x x') : x.now ≤ x'.now := by
  cases step with
  | tick later => exact later
  | turn | work | start | schedule | shut | drop | close => exact le_rfl

theorem Course.later (h : x.Course k actions due delay) (accounts : x.Accounts)
    (punctual : x.Punctual) (later : Docket.Later held x x') (more : Span)
    (holds : (∀ holder, held holder → Only k holder) ∨ x'.now ≤ x.now + more) :
    x'.Course k actions due (delay + more) := by
  obtain own | soon := holds
  · refine Course.widen ?_ more
    induction later with
    | refl => exact h
    | tail before step ih =>
      exact ih.step (accounts.later before).1 (punctual.later before) step 0 (.inl own)
  · suffices passed : ∃ passed, x'.now = x.now + passed ∧
        x'.Course k actions due (delay + passed) by
      obtain ⟨passed, now, course⟩ := passed
      have rest := course.widen (more - passed)
      rw [add_assoc, Nat.add_sub_of_le (by rw [now] at soon; exact Nat.le_of_add_le_add_left soon)]
        at rest
      exact rest
    clear soon
    induction later with
    | refl => exact ⟨0, rfl, h⟩
    | @tail middle last before step ih =>
      obtain ⟨passed, now, course⟩ := ih
      have takes := Nat.add_sub_of_le step.now_le
      refine ⟨passed + (last.now - middle.now), ?_, ?_⟩
      · rw [← add_assoc, ← now, takes]
      · rw [← add_assoc]
        exact course.step (accounts.later before).1 (punctual.later before) step _ (.inr takes.ge)

/-- A run that goes on begins its course at any time. -/
theorem Accounts.course (h : x.Accounts) (ht : task ∈ x.tasks) (place : task.place? = some k) :
    x.Course k (task.actions x.upcoming)
      (Action.doneAt (task.actions x.upcoming) (x.hand.goesOn x.now task)) 0 := by
  obtain ⟨run, hr, going⟩ := Scheduler.mem_unended.mp (h.goes ht place)
  refine ⟨(List.getElem?_eq_some_iff.mp hr).1, fun run' ending hr' ended => ?_,
    fun other ho same => ?_⟩
  · obtain rfl := Option.some.inj (hr.symm.trans hr')
    cases going.symm.trans ended
  · obtain rfl := h.only ht place ho same
    exact ⟨.refl, le_rfl, le_rfl⟩

end Docket
end TokenKeeper
