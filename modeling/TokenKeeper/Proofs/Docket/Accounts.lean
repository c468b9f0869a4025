import Mathlib.Data.Multiset.Range
import TokenKeeper.Proofs.Docket.Birth
/-! The accounts of a scheduler. Every submission waits, has begun or has been dropped, and every
run that has not ended has one task; a step takes away on one side what it adds on another. -/
namespace TokenKeeper

namespace Left
variable {lossy : Bool}

theorem filterMap {a b : Multiset α} (h : Left lossy a b) (f : α → Option β) :
    Left lossy (a.filterMap f) (b.filterMap f) :=
  ⟨Multiset.filterMap_le_filterMap f h.le, fun lossless => by rw [h.eq lossless]⟩

theorem exchange {a b a' b' : Multiset α} (h : Left lossy a b) (balance : a' + b = a + b') :
    Left lossy a' b' := by
  have both := h.add_right b'
  rw [← balance, add_comm b] at both
  exact ⟨le_of_add_le_add_right both.le, fun lossless => add_right_cancel (both.eq lossless)⟩

end Left

theorem filterMap_singleton (f : α → Option β) (a : α) :
    ({a} : Multiset α).filterMap f = ((f a).toList : Multiset β) := by
  rw [← Multiset.cons_zero]
  cases h : f a with
  | none => rw [Multiset.filterMap_cons_none a 0 h]; rfl
  | some b => rw [Multiset.filterMap_cons_some f a 0 h]; rfl

namespace Task
variable {task next : Task}

theorem awaits?_number {now : Instant} {submission : Submission} {due : Instant}
    (h : task.awaits? now = some (submission, due)) :
    task.number? = some submission.number ∧ task.place? = none := by
  unfold awaits? at h
  split at h <;> cases h <;> exact ⟨rfl, rfl⟩

theorem Begins.number? {now : Instant} {off : Bool} {submission : Submission}
    (h : task.Begins now off submission) :
    task.number? = some submission.number ∧ task.place? = none := by
  cases h with
  | atOnce => exact ⟨rfl, rfl⟩
  | waited waits => exact awaits?_number waits

theorem pausing?_run {pause : Pause} {still : Pause → Task}
    (h : task.pausing? = some (pause, still, next)) : task.number? = none ∧
      (∀ pause, (still pause).number? = none ∧ (still pause).place? = task.place?) ∧
      next.number? = none ∧ next.place? = task.place? := by
  unfold pausing? at h
  split at h <;> cases h <;> exact ⟨rfl, fun _ => ⟨rfl, rfl⟩, rfl, rfl⟩

end Task

namespace Scheduler
variable {scheduler : Scheduler} {k : Nat}

def executing (scheduler : Scheduler) : Multiset Nat :=
  ((scheduler.runs.filter (·.ending.isNone)).map (·.submission) : List Nat)

def ended (scheduler : Scheduler) : Multiset Nat :=
  ((scheduler.runs.filter (·.ending.isSome)).map (·.submission) : List Nat)

def settled (scheduler : Scheduler) : Multiset Nat :=
  scheduler.executing + scheduler.ended + (scheduler.abandoned : Multiset Nat)

theorem settled_eq (scheduler : Scheduler) : scheduler.settled =
    (scheduler.runs.map (·.submission) : List Nat) + (scheduler.abandoned : Multiset Nat) := by
  have runs : scheduler.executing + scheduler.ended =
      (scheduler.runs.map (·.submission) : List Nat) := by
    unfold executing ended
    rw [Multiset.coe_add, ← List.map_append, Multiset.coe_eq_coe]
    refine List.Perm.map _ ?_
    simpa using scheduler.runs.filter_append_perm (·.ending.isNone)
  rw [settled, runs]

def unended (scheduler : Scheduler) : Multiset Nat :=
  (Multiset.range scheduler.runs.length).filter fun k =>
    scheduler.runs[k]?.any (·.ending.isNone) = true

theorem mem_unended : k ∈ scheduler.unended ↔
    ∃ run, scheduler.runs[k]? = some run ∧ run.ending = none := by
  unfold unended
  rw [Multiset.mem_filter, Multiset.mem_range, Option.any_eq_true]
  simp only [Option.isNone_iff_eq_none]
  refine ⟨And.right, fun ⟨run, hr, open'⟩ => ⟨(List.getElem?_eq_some_iff.mp hr).1, run, hr, open'⟩⟩

theorem nodup_unended (scheduler : Scheduler) : scheduler.unended.Nodup :=
  Multiset.Nodup.filter _ (Multiset.nodup_range _)

theorem enter_unended (scheduler : Scheduler) (number : Nat) (now : Instant) :
    (scheduler.enter number now).unended = {scheduler.runs.length} + scheduler.unended := by
  refine Multiset.Nodup.ext (nodup_unended _) ?_ |>.mpr fun k => ?_
  · rw [Multiset.singleton_add, Multiset.nodup_cons]
    refine ⟨fun member => ?_, nodup_unended _⟩
    obtain ⟨run, hr, -⟩ := mem_unended.mp member
    simp at hr
  · rw [Multiset.mem_add, Multiset.mem_singleton, mem_unended, mem_unended]
    constructor
    · rintro ⟨run, hr, open'⟩
      obtain old | ⟨same, -⟩ := getElem?_concat_cases hr
      · exact .inr ⟨run, old, open'⟩
      · exact .inl same
    · rintro (rfl | ⟨run, hr, open'⟩)
      · exact ⟨_, List.getElem?_concat_length, rfl⟩
      · refine ⟨run, ?_, open'⟩
        exact (List.getElem?_append_left (List.getElem?_eq_some_iff.mp hr).1).trans hr

theorem endRun_unended (h : k ∈ scheduler.unended) (ending : Ending) :
    scheduler.unended = {k} + (scheduler.endRun k ending).unended := by
  have rest : (scheduler.endRun k ending).unended = scheduler.unended.erase k := by
    refine Multiset.Nodup.ext (nodup_unended _) ((nodup_unended _).erase k) |>.mpr fun j => ?_
    rw [(nodup_unended _).mem_erase_iff, mem_unended, mem_unended]
    simp only [Scheduler.endRun, List.getElem?_modify]
    by_cases same : k = j
    · subst same
      simp
    · simp [same, Ne.symm same]
  rw [rest, Multiset.singleton_add, Multiset.cons_erase h]

theorem enter_settled (scheduler : Scheduler) (number : Nat) (now : Instant) :
    (scheduler.enter number now).settled = {number} + scheduler.settled := by
  simp only [settled_eq, enter, List.map_append, List.map_singleton, ← Multiset.coe_add,
    Multiset.coe_singleton]
  rw [add_comm (_ : Multiset Nat) {number}, add_assoc]

theorem abandon_settled (scheduler : Scheduler) (number : Nat) :
    (scheduler.abandon number).settled = {number} + scheduler.settled := by
  simp only [settled_eq, abandon, ← Multiset.cons_coe, ← Multiset.singleton_add]
  rw [add_left_comm]

theorem endRun_submissions (scheduler : Scheduler) (k : Nat) (ending : Ending) :
    (scheduler.endRun k ending).runs.map (·.submission) = scheduler.runs.map (·.submission) := by
  refine List.ext_getElem? fun j => ?_
  simp only [endRun, List.getElem?_map, List.getElem?_modify]
  cases scheduler.runs[j]? with
  | none => rfl
  | some run => split <;> rfl

theorem endRun_settled (scheduler : Scheduler) (k : Nat) (ending : Ending) :
    (scheduler.endRun k ending).settled = scheduler.settled := by
  rw [settled_eq, settled_eq, endRun_submissions]
  rfl

/-- What comes and goes for the scheduler among its tasks, and what changes in its books. -/
structure Balances (before after : Scheduler) (gone came : Multiset Task) : Prop where
  numbers : came.filterMap Task.number? + after.settled + Multiset.range before.accepted =
    gone.filterMap Task.number? + before.settled + Multiset.range after.accepted
  places : came.filterMap Task.place? + before.unended = gone.filterMap Task.place? + after.unended

theorem Balances.accept {before after : Scheduler} {gone came : Multiset Task}
    (h : before.Balances after gone came) {task : Task} (place : task.place? = none)
    (number : task.number? = some before.accepted) (same : after.accepted = before.accepted)
    {later : Scheduler} (accepted : later.accepted = before.accepted + 1)
    (settled : later.settled = after.settled) (unended : later.unended = after.unended) :
    before.Balances later gone ({task} + came) where
  numbers := by
    have numbers := h.numbers
    rw [same] at numbers
    rw [Multiset.filterMap_add, filterMap_singleton, number, settled, accepted,
      Multiset.range_succ, ← Multiset.singleton_add]
    rw [add_left_comm, ← numbers]
    simp only [Option.toList_some, Multiset.coe_singleton]
    abel
  places := by
    rw [Multiset.filterMap_add, filterMap_singleton, place, unended]
    simpa using h.places

theorem Balances.endRun {task : Task} (place : task.place? = some k) (number : task.number? = none)
    (member : k ∈ scheduler.unended) (ending : Ending) :
    scheduler.Balances (scheduler.endRun k ending) {task} 0 where
  numbers := by
    rw [filterMap_singleton, number, scheduler.endRun_settled]
    rfl
  places := by
    rw [filterMap_singleton, place, endRun_unended member ending]
    simp

/-- The books of a scheduler agree with its tasks, of which some may be lost: every submission
waits, is executing, has ended or has been dropped, and every run that goes on has one task. -/
structure Accounts (scheduler : Scheduler) (lossy : Bool) (tasks : Multiset Task) : Prop where
  numbers : Left lossy (tasks.filterMap Task.number? + scheduler.settled)
    (Multiset.range scheduler.accepted)
  places : Left lossy (tasks.filterMap Task.place?) scheduler.unended
  abandoned : scheduler.abandoned ≠ [] → scheduler.isShutDown = true
  lossy : lossy = true → scheduler.isShutDown = true

namespace Accounts
variable {lossy : Bool} {tasks : Multiset Task}

theorem goes (h : scheduler.Accounts lossy tasks) {task : Task} (ht : task ∈ tasks)
    (place : task.place? = some k) : k ∈ scheduler.unended :=
  h.places.mem ((Multiset.mem_filterMap _ _).mpr ⟨task, ht, place⟩)

theorem waits (h : scheduler.Accounts lossy tasks) {task : Task} (ht : task ∈ tasks) {n : Nat}
    (number : task.number? = some n) : n < scheduler.accepted :=
  Multiset.mem_range.mp <| h.numbers.mem <|
    Multiset.mem_add.mpr (.inl ((Multiset.mem_filterMap _ _).mpr ⟨task, ht, number⟩))

theorem runs_nodup (h : scheduler.Accounts lossy tasks) :
    (scheduler.runs.map (·.submission)).Nodup := by
  have settled := (Multiset.le_add_left _ _).trans h.numbers.le
  rw [settled_eq] at settled
  exact Multiset.coe_nodup.mp
    (Multiset.nodup_of_le ((Multiset.le_add_right _ _).trans settled) (Multiset.nodup_range _))

theorem exchange (h : scheduler.Accounts lossy tasks) {later : Scheduler}
    {gone came rest tasks' : Multiset Task} (was : tasks = gone + rest)
    (balances : scheduler.Balances later gone came) (left : Left lossy tasks' (came + rest))
    (abandoned : later.abandoned ≠ [] → later.isShutDown = true)
    (shut : scheduler.isShutDown = true → later.isShutDown = true) :
    later.Accounts lossy tasks' where
  numbers := by
    refine ((left.filterMap Task.number?).add_right later.settled).trans (h.numbers.exchange ?_)
    have numbers := congrArg (rest.filterMap Task.number? + ·) balances.numbers
    rw [was, Multiset.filterMap_add, Multiset.filterMap_add]
    convert numbers using 1 <;> abel
  places := by
    refine (left.filterMap Task.place?).trans (h.places.exchange ?_)
    rw [was, Multiset.filterMap_add, Multiset.filterMap_add, add_right_comm, balances.places]
    abel
  abandoned := abandoned
  lossy := fun lost => shut (h.lossy lost)

theorem accept {hand others others' : Multiset Task} (h : scheduler.Accounts lossy (hand + others))
    {task : Task} (left : Left lossy others' ({task} + others)) (place : task.place? = none)
    (number : task.number? = some scheduler.accepted) {later : Scheduler}
    (accepted : later.accepted = scheduler.accepted + 1)
    (settled : later.settled = scheduler.settled) (unended : later.unended = scheduler.unended)
    (abandoned : later.abandoned ≠ [] → later.isShutDown = true)
    (shut : scheduler.isShutDown = true → later.isShutDown = true) :
    later.Accounts lossy (hand + others') := by
  have nothing : scheduler.Balances scheduler 0 0 := ⟨rfl, rfl⟩
  refine h.exchange (zero_add _).symm
    (nothing.accept place number rfl accepted settled unended) ?_ abandoned shut
  rw [add_zero, add_left_comm]
  exact left.add_left _

end Accounts
end Scheduler

namespace Docket
variable {x : Docket}

open Scheduler (Balances)

theorem Turn.balances {task : Task} {added : Multiset Task} {scheduler : Scheduler}
    {upcoming : Call} (turn : x.Turn task added scheduler upcoming)
    (goes : ∀ k, task.place? = some k → k ∈ x.scheduler.unended) :
    x.scheduler.Balances scheduler {task} added := by
  have goesOn (task next : Task) (number : next.number? = task.number?)
      (place : next.place? = task.place?) : x.scheduler.Balances x.scheduler {task} {next} := by
    constructor <;> simp only [filterMap_singleton, number, place]
  cases turn with
  | enter begins place number =>
    have ⟨waited, unplaced⟩ := begins.number?
    constructor
    · rw [filterMap_singleton, number, filterMap_singleton, waited, Scheduler.enter_settled]
      simp [Scheduler.enter]
    · rw [filterMap_singleton, place, filterMap_singleton, unplaced, Scheduler.enter_unended]
      simp
  | @enterDropped task submission begins =>
    have ⟨waited, unplaced⟩ := begins.number?
    have member :
        x.scheduler.runs.length ∈ (x.scheduler.enter submission.number x.now).unended := by
      simp [Scheduler.enter_unended]
    have after := Scheduler.endRun_unended member (.returned x.now)
    rw [Scheduler.enter_unended] at after
    constructor
    · simp only [filterMap_singleton, Scheduler.endRun_settled, Scheduler.enter_settled, waited]
      simp [Scheduler.enter, Scheduler.endRun]
    · simp only [filterMap_singleton, unplaced]
      simpa using after
  | abandon waits =>
    have ⟨number, place⟩ := Task.awaits?_number waits
    constructor
    · rw [filterMap_singleton, number, Scheduler.abandon_settled]
      simp [Scheduler.abandon]
    · rw [filterMap_singleton, place]
      rfl
  | wait waits =>
    have ⟨number, place⟩ := Task.awaits?_number waits
    exact goesOn _ _ number.symm place.symm
  | pause pauses =>
    obtain ⟨number, still, -⟩ := Task.pausing?_run pauses
    exact goesOn _ _ ((still _).1.trans number.symm) (still _).2
  | resume pauses =>
    obtain ⟨number, -, after, place⟩ := Task.pausing?_run pauses
    exact goesOn _ _ (after.trans number.symm) place
  | leave | panic | concludeLast => exact Balances.endRun rfl rfl (goes _ rfl) _
  | @schedule run delay rest =>
    have goes := goesOn (.script run (.schedule delay :: rest)) (.script run rest) rfl rfl
    exact Balances.accept goes rfl rfl rfl rfl rfl rfl
  | @start run rest =>
    exact Balances.accept (goesOn (.script run (.start :: rest)) (.script run rest) rfl rfl)
      rfl rfl rfl rfl rfl rfl
  | shutdown =>
    exact ⟨(goesOn _ _ rfl rfl).numbers, (goesOn _ _ rfl rfl).places⟩
  | inVain | call | endCall => exact goesOn _ _ rfl rfl
  | conclude =>
    refine (Balances.endRun rfl rfl (goes _ rfl) (.returned x.now)).accept rfl rfl rfl rfl ?_ rfl
    rfl

end Docket
end TokenKeeper
