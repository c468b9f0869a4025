import TokenKeeper.Proofs.Docket.Continued
/-! What a run still has to do, and when it is done with it if nobody else holds the worker. A step
of the run does the first thing of it and leaves the rest for then. -/
namespace TokenKeeper

/-- When a pause that begins at a time is over. -/
def Pause.doneAt : Pause → Instant → Instant
  | rest length, t => t.afterRest length
  | till due, t => max t due
  | hold length, t => t + length

theorem Pause.doneAt_mono (p : Pause) : Monotone p.doneAt := by
  intro t t' le
  cases p with
  | rest | hold => exact Nat.add_le_add_right le _
  | till => exact max_le_max_right _ le

theorem Pause.le_doneAt (p : Pause) (t : Instant) : t ≤ p.doneAt t := by
  cases p with
  | rest | hold => exact Nat.le_add_right _ _
  | till => exact le_max_left _ _

/-- Whoever comes later by so much is done later by no more. -/
theorem Pause.doneAt_add_le (p : Pause) (t : Instant) (more : Span) :
    p.doneAt (t + more) ≤ p.doneAt t + more := by
  cases p with
  | rest | hold => exact (Nat.add_right_comm _ _ _).le
  | till due =>
    refine max_le (Nat.add_le_add_right (le_max_left t due) more) ?_
    exact (le_max_right t due).trans (Nat.le_add_right _ _)

theorem Pause.doneAt_due {p : Pause} {now due : Instant} (h : p.due? now = some due) :
    (Pause.till due).doneAt now = p.doneAt now := by
  cases p with
  | rest length =>
    cases h
    exact max_eq_right (Nat.le_add_right _ _)
  | till => cases h; rfl
  | hold => cases h

theorem Pause.doneAt_lapsed {p : Pause} {now : Instant}
    (h : ∀ due, p.due? now = some due → due ≤ now)
    (free : ∀ length, p = .hold length → length = 0) : p.doneAt now = now := by
  cases p with
  | rest length => exact le_antisymm (h _ rfl) (Nat.le_add_right _ _)
  | till due => exact max_eq_left (h due rfl)
  | hold length => rw [free length rfl]; rfl

namespace Action

/-- When a run that begins with the actions at a time has ended. -/
def doneAt : List Action → Instant → Instant
  | [], t | .panic :: _, t => t
  | .pause p :: rest, t => doneAt rest (p.doneAt t)
  | .schedule _ :: rest, t | .start :: rest, t | .shutdown :: rest, t => doneAt rest t

theorem doneAt_mono (actions : List Action) : Monotone (doneAt actions) := by
  induction actions with
  | nil => exact monotone_id
  | cons action rest ih => cases action with
    | pause p => exact ih.comp p.doneAt_mono
    | schedule | start | shutdown => exact ih
    | panic => exact monotone_id

theorem le_doneAt (actions : List Action) (t : Instant) : t ≤ doneAt actions t := by
  induction actions generalizing t with
  | nil => exact le_rfl
  | cons action rest ih => cases action with
    | pause p => exact (p.le_doneAt t).trans (ih _)
    | schedule | start | shutdown => exact ih t
    | panic => exact le_rfl

theorem doneAt_add_le (actions : List Action) (t : Instant) (more : Span) :
    doneAt actions (t + more) ≤ doneAt actions t + more := by
  induction actions generalizing t with
  | nil => exact le_rfl
  | cons action rest ih => cases action with
    | pause p => exact (doneAt_mono rest (p.doneAt_add_le t more)).trans (ih _)
    | schedule | start | shutdown => exact ih t
    | panic => exact le_rfl

inductive Performs : List Action → List Action → Prop where
  /-- The end of a rest is fixed. -/
  | begin {p due rest} : Performs (.pause p :: rest) (.pause (.till due) :: rest)
  | done {action rest} (h : action ≠ .panic) : Performs (action :: rest) rest

/-- What is left of the actions. -/
abbrev Remains : List Action → List Action → Prop := Relation.ReflTransGen Performs

theorem Remains.panic {before after : List Action} (h : Remains before after) :
    Action.panic ∈ after ↔ Action.panic ∈ before := by
  induction h with
  | refl => rfl
  | tail _ step ih =>
    rw [← ih]
    cases step with
    | begin => simp
    | done other => simp [Ne.symm other]

end Action

namespace Task
variable {task next : Task} {p : Pause} {still : Pause → Task}

def actions (upcoming : Call) : Task → List Action
  | script _ actions => actions
  | fetch .. => upcoming.pauses.map .pause
  | call _ _ pauses _ => pauses.map .pause
  | _ => []

theorem pausing?_actions (h : task.pausing? = some (p, still, next)) (upcoming : Call) {k : Nat}
    (place : task.place? = some k) : task.actions upcoming = .pause p :: next.actions upcoming ∧
      ∀ p', (still p').actions upcoming = .pause p' :: next.actions upcoming := by
  unfold pausing? at h
  split at h <;> cases h
  · exact ⟨rfl, fun _ => rfl⟩
  · exact ⟨rfl, fun _ => rfl⟩
  · cases place

/-- A rest that has begun ends at its time, whenever the run comes back to it before. -/
theorem doneAt_of_due {due t : Instant} (hd : task.due? = some due) (upcoming : Call) {k : Nat}
    (place : task.place? = some k) (le : t ≤ due) :
    Action.doneAt (task.actions upcoming) t = Action.doneAt (task.actions upcoming) due := by
  unfold due? at hd
  split at hd <;> cases hd <;> cases place <;>
    simp [actions, Action.doneAt, Pause.doneAt, le]

theorem le_doneAt_of_due {due : Instant} (hd : task.due? = some due) (upcoming : Call) {k : Nat}
    (place : task.place? = some k) (t : Instant) :
    due ≤ Action.doneAt (task.actions upcoming) t := by
  have later : due ≤ Action.doneAt (task.actions upcoming) (max t due) :=
    (le_max_right _ _).trans (Action.le_doneAt _ _)
  unfold due? at hd
  split at hd <;> cases hd <;> cases place <;>
    simpa [actions, Action.doneAt, Pause.doneAt] using later

end Task

namespace Docket
variable {x : Docket} {k : Nat} {task : Task} {added : Multiset Task} {scheduler : Scheduler}
  {upcoming : Call}

/-- What a step makes of the run at hand: it goes on with what remains, or ends when nothing
does. -/
inductive Goes (x : Docket) (k : Nat) (task : Task) (added : Multiset Task)
    (scheduler : Scheduler) (upcoming : Call) : Prop where
  | on (next : Task) (only : ∀ other ∈ added, other.place? = some k → other = next)
      (runs : scheduler.runs = x.scheduler.runs)
      (remains : Action.Remains (task.actions x.upcoming) (next.actions upcoming))
      (same : Action.doneAt (next.actions upcoming) x.now =
        Action.doneAt (task.actions x.upcoming) x.now)
      (free : ∀ length still, task.pausing? = some (.hold length, still, next) → length = 0)
  | holds (next : Task) (only : ∀ other ∈ added, other.place? = some k → other = next)
      (runs : scheduler.runs = x.scheduler.runs)
      (remains : Action.Remains (task.actions x.upcoming) (next.actions upcoming))
      (length : Span) (still : Pause → Task)
      (pauses : task.pausing? = some (.hold length, still, next)) (positive : length ≠ 0)
      (same : Action.doneAt (next.actions upcoming) (x.now + length) =
        Action.doneAt (task.actions x.upcoming) x.now)
  | ends (ending : Ending) (none_left : ∀ other ∈ added, other.place? ≠ some k)
      (runs : scheduler.runs = (x.scheduler.endRun k ending).runs)
      (how : ending = .returned x.now ∧ task.actions x.upcoming = [] ∨
        ending = .panicked ∧ ∃ rest, task.actions x.upcoming = .panic :: rest)

theorem Turn.goes (turn : x.Turn task added scheduler upcoming) (place : task.place? = some k) :
    x.Goes k task added scheduler upcoming := by
  have single {next other : Task} (member : other ∈ ({next} : Multiset Task))
      (_ : other.place? = some k) : other = next := Multiset.mem_singleton.mp member
  have second {first next : Task} (none : first.place? = none) {other : Task}
      (member : other ∈ ({first} + {next} : Multiset Task)) (place : other.place? = some k) :
      other = next := by
    obtain same | same := Multiset.mem_add.mp member
    · rw [Multiset.mem_singleton.mp same, none] at place
      cases place
    · exact Multiset.mem_singleton.mp same
  cases turn with
  | enter begins | enterDropped begins => cases begins.number?.2.symm.trans place
  | abandon waits | wait waits =>
    cases (Task.awaits?_number waits).2.symm.trans place
  | @pause _ p still next due pauses hd =>
    obtain ⟨before, after⟩ := Task.pausing?_actions pauses x.upcoming place
    refine .on _ (fun _ => single) rfl ?_ ?_ fun length still' holds => ?_
    · rw [before, after]
      exact .single .begin
    · rw [before, after, Action.doneAt, Action.doneAt, Pause.doneAt_due hd]
    · cases pauses.symm.trans holds
      cases hd
  | @resume _ p still next pauses lapsed =>
    obtain ⟨before, -⟩ := Task.pausing?_actions pauses x.upcoming place
    have remains : Action.Remains (task.actions x.upcoming) (next.actions x.upcoming) :=
      before ▸ .single (.done nofun)
    by_cases holds : ∃ length, p = .hold length ∧ length ≠ 0
    · obtain ⟨length, rfl, positive⟩ := holds
      exact .holds next (fun _ => single) rfl remains length still pauses positive (before ▸ rfl)
    · have free : ∀ length, p = .hold length → length = 0 := fun length same => by
        by_contra positive
        exact holds ⟨length, same, positive⟩
      refine .on next (fun _ => single) rfl remains ?_ fun length still' same => ?_
      · rw [before, Action.doneAt, Pause.doneAt_lapsed lapsed free]
      · cases pauses.symm.trans same
        exact free length rfl
  | leave =>
    cases place
    exact .ends _ (fun _ none => absurd none (Multiset.notMem_zero _)) rfl (.inl ⟨rfl, rfl⟩)
  | panic =>
    cases place
    exact .ends _ (fun _ none => absurd none (Multiset.notMem_zero _)) rfl (.inr ⟨rfl, _, rfl⟩)
  | schedule | start =>
    exact .on _ (fun _ => second rfl) rfl (.single (.done nofun)) rfl nofun
  | shutdown => exact .on _ (fun _ => single) rfl (.single (.done nofun)) rfl nofun
  | @inVain run action rest kind =>
    obtain rfl | rfl | ⟨delay, rfl⟩ := kind <;>
      exact .on _ (fun _ => single) rfl (.single (.done nofun)) rfl nofun
  | call => exact .on _ (fun _ => single) rfl .refl rfl nofun
  | endCall => exact .on _ (fun _ => single) rfl .refl rfl nofun
  | conclude =>
    cases place
    refine .ends _ (fun other member same => ?_) rfl (.inl ⟨rfl, rfl⟩)
    cases Multiset.mem_singleton.mp member
    cases same
  | concludeLast =>
    cases place
    exact .ends _ (fun _ none => absurd none (Multiset.notMem_zero _)) rfl (.inl ⟨rfl, rfl⟩)

end Docket
end TokenKeeper
