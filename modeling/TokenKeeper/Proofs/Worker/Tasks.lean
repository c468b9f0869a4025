import Mathlib.Algebra.Order.Group.Multiset
import Mathlib.Tactic.Abel
import TokenKeeper.Pool.Worker
/-! The tasks of a worker, wherever they stand. No operation of the worker adds or repeats a task,
and only a closing one loses any. -/
namespace TokenKeeper

/-- `a` is what is left of `b`: all of it, or perhaps less where some may be lost. -/
structure Left (lossy : Bool) (a b : Multiset α) : Prop where
  le : a ≤ b
  eq : lossy = false → a = b

namespace Left

theorem of_eq {lossy : Bool} {a b : Multiset α} (h : a = b) : Left lossy a b := ⟨h.le, fun _ => h⟩

theorem refl (lossy : Bool) (a : Multiset α) : Left lossy a a := of_eq rfl

theorem trans {lossy : Bool} {a b c : Multiset α} (hab : Left lossy a b) (hbc : Left lossy b c) :
    Left lossy a c :=
  ⟨hab.le.trans hbc.le, fun h => (hab.eq h).trans (hbc.eq h)⟩

theorem add {lossy : Bool} {a b c d : Multiset α} (hab : Left lossy a b) (hcd : Left lossy c d) :
    Left lossy (a + c) (b + d) :=
  ⟨add_le_add hab.le hcd.le, fun h => by rw [hab.eq h, hcd.eq h]⟩

theorem add_right {lossy : Bool} {a b : Multiset α} (h : Left lossy a b) (c : Multiset α) :
    Left lossy (a + c) (b + c) := h.add (.refl _ c)

theorem add_left {lossy : Bool} {a b : Multiset α} (h : Left lossy a b) (c : Multiset α) :
    Left lossy (c + a) (c + b) := (refl _ c).add h

theorem filter {lossy : Bool} {a b : Multiset α} (h : Left lossy a b) (p : α → Prop)
    [DecidablePred p] : Left lossy (a.filter p) (b.filter p) :=
  ⟨Multiset.filter_le_filter p h.le, fun lossless => by rw [h.eq lossless]⟩

theorem mem {lossy : Bool} {a b : Multiset α} (h : Left lossy a b) {task : α} (ht : task ∈ a) :
    task ∈ b := Multiset.mem_of_le h.le ht

end Left

namespace Worker

def Stage.tasks : Stage α → Multiset α
  | .busy task | .held task _ => {task}
  | .free | .idle | .between | .gone => 0

def others (worker : Worker α) : Multiset α :=
  (worker.front.toList : Multiset α) + worker.queue + worker.inbox + worker.aside +
    (worker.resting.map (·.2) : List α)

def tasks (worker : Worker α) : Multiset α := worker.stage.tasks + worker.others

theorem tasks_busy {worker : Worker α} {task : α} (stage : worker.stage = .busy task) :
    worker.tasks = {task} + worker.others := by
  unfold tasks
  rw [stage]
  rfl

theorem fresh_tasks (now : Instant) : (fresh now : Worker α).tasks = 0 := rfl

def withHand (worker : Worker α) (front : Option α) (queue inbox : List α) : Worker α :=
  { worker with front := front, queue := queue, inbox := inbox }

theorem submitAll_others (worker : Worker α) (tasks : List α) :
    Left worker.closing (worker.submitAll tasks).others (tasks + worker.others) := by
  unfold submitAll
  split
  · rename_i closing
    exact ⟨Multiset.le_add_left _ _, fun h => by simp [h] at closing⟩
  · apply Left.of_eq
    simp only [others, ← Multiset.coe_add]
    abel

theorem submitAll_eq (worker : Worker α) (tasks : List α) :
    ∃ inbox, worker.submitAll tasks = worker.withHand worker.front worker.queue inbox := by
  unfold submitAll
  split
  · exact ⟨worker.inbox, rfl⟩
  · exact ⟨worker.inbox ++ tasks, rfl⟩

theorem submit_tasks (worker : Worker α) (task : α) :
    Left worker.closing (worker.submit task).tasks ({task} + worker.tasks) := by
  have others := worker.submitAll_others [task]
  obtain ⟨inbox, eq⟩ := worker.submitAll_eq [task]
  rw [Multiset.coe_singleton] at others
  unfold submit tasks
  rw [eq] at others ⊢
  refine (others.add_left worker.stage.tasks).trans (.of_eq ?_)
  rw [add_left_comm]

theorem enqueue_others (worker : Worker α) (task : α) :
    Left worker.closing (worker.enqueue task).others ({task} + worker.others) := by
  unfold enqueue
  split
  · apply Left.of_eq
    simp only [others, ← Multiset.coe_add, Multiset.coe_singleton]
    abel
  · have h := submitAll_others { worker with queue := worker.queue.take (maxQueue / 2) }
      (worker.queue.drop (maxQueue / 2) ++ [task])
    apply h.trans
    apply Left.of_eq
    have hq : (worker.queue : Multiset α) =
        worker.queue.take (maxQueue / 2) + worker.queue.drop (maxQueue / 2) := by
      rw [Multiset.coe_add, List.take_append_drop]
    simp only [others, hq, ← Multiset.coe_add, Multiset.coe_singleton]
    abel

theorem enqueue_eq (worker : Worker α) (task : α) :
    ∃ queue inbox, worker.enqueue task = worker.withHand worker.front queue inbox := by
  unfold enqueue
  split
  · exact ⟨worker.queue ++ [task], worker.inbox, rfl⟩
  · obtain ⟨inbox, h⟩ := submitAll_eq { worker with queue := worker.queue.take (maxQueue / 2) }
      (worker.queue.drop (maxQueue / 2) ++ [task])
    exact ⟨_, inbox, h⟩

theorem push_eq (worker : Worker α) (task : α) :
    ∃ front queue inbox, worker.push task = worker.withHand front queue inbox := by
  unfold push
  split
  · cases hf : worker.front with
    | none => exact ⟨some task, worker.queue, worker.inbox, rfl⟩
    | some first =>
      obtain ⟨queue, inbox, h⟩ := enqueue_eq worker first
      exact ⟨some task, queue, inbox, by simp only [Option.toList, List.foldl, h, withHand]⟩
  · obtain ⟨queue, inbox, h⟩ := enqueue_eq worker task
    exact ⟨worker.front, queue, inbox, h⟩

theorem enqueue_front (worker : Worker α) (front : Option α) (task : α) :
    { worker with front := front }.enqueue task = { worker.enqueue task with front := front } := by
  unfold enqueue submitAll
  split
  · rfl
  · dsimp only
    split <;> rfl

theorem push_others (worker : Worker α) (task : α) :
    Left worker.closing (worker.push task).others ({task} + worker.others) := by
  unfold push
  split
  · cases hf : worker.front with
    | none =>
      apply Left.of_eq
      simp only [others, hf, Option.toList, List.foldl, Multiset.coe_singleton, Multiset.coe_nil]
      abel
    | some first =>
      have h := (enqueue_others { worker with front := none } first).add_left {task}
      rw [enqueue_front] at h
      simp only [others, hf, Option.toList, List.foldl, Multiset.coe_singleton, Multiset.coe_nil,
        zero_add] at h ⊢
      convert h using 1 <;> abel
  · exact enqueue_others worker task

theorem foldl_push_eq (tasks : List α) (worker : Worker α) :
    ∃ front queue inbox, tasks.foldl push worker = worker.withHand front queue inbox := by
  induction tasks generalizing worker with
  | nil => exact ⟨worker.front, worker.queue, worker.inbox, rfl⟩
  | cons task tasks ih =>
    obtain ⟨front, queue, inbox, h⟩ := push_eq worker task
    obtain ⟨front', queue', inbox', h'⟩ := ih (worker.push task)
    exact ⟨front', queue', inbox', by rw [List.foldl_cons, h', h]; rfl⟩

theorem foldl_push_others (tasks : List α) (worker : Worker α) :
    Left worker.closing (tasks.foldl push worker).others (tasks + worker.others) := by
  induction tasks generalizing worker with
  | nil => exact .of_eq (by simp)
  | cons task tasks ih =>
    obtain ⟨front, queue, inbox, heq⟩ := push_eq worker task
    have h := ih (worker.push task)
    rw [show (worker.push task).closing = worker.closing by rw [heq]; rfl] at h
    apply (h.trans ((push_others worker task).add_left _)).trans
    apply Left.of_eq
    rw [← Multiset.cons_coe, ← Multiset.singleton_add]
    abel

theorem push_front (worker : Worker α) (task : α) (h : worker.streak < maxStreak) :
    (worker.push task).front = some task := by
  unfold push
  rw [if_pos h]

theorem foldl_push_front (tasks : List α) (worker : Worker α) (h : worker.streak < maxStreak)
    (some_task : tasks ≠ [] ∨ worker.front.isSome) : (tasks.foldl push worker).front.isSome := by
  induction tasks generalizing worker with
  | nil => simpa using some_task
  | cons task tasks ih =>
    rw [List.foldl_cons]
    obtain ⟨front, queue, inbox, heq⟩ := push_eq worker task
    refine ih _ ?_ (.inr ?_)
    · rw [heq]
      exact h
    · rw [push_front worker task h]
      rfl

theorem due_coe (worker : Worker α) (now : Instant) :
    (worker.due now : Multiset α) =
      ((worker.resting.filter fun r => r.1 ≤ now).map (·.2) : List α) := by
  apply Multiset.coe_eq_coe.mpr
  exact (List.mergeSort_perm _ _).map _

def roused (worker : Worker α) (now : Instant) : Worker α :=
  { worker with
    resting := worker.resting.filter fun r => now < r.1
    aside := []
    looked := now }

theorem look_eq (worker : Worker α) (now : Instant) :
    ∃ front queue inbox, worker.look now = (worker.roused now).withHand front queue inbox :=
  foldl_push_eq _ _

theorem look_others (worker : Worker α) (now : Instant) :
    Left worker.closing (worker.look now).others worker.others := by
  apply (foldl_push_others (worker.due now ++ worker.aside.reverse) (worker.roused now)).trans
  apply Left.of_eq
  have split := List.filter_append_perm (fun r : Instant × α => decide (r.1 ≤ now)) worker.resting
  have late : (fun r : Instant × α => !decide (r.1 ≤ now)) = fun r => decide (now < r.1) := by
    funext r
    simp only [← decide_not, Nat.not_le]
  rw [late] at split
  have resting := Multiset.coe_eq_coe.mpr (split.map Prod.snd)
  rw [List.map_append, ← Multiset.coe_add] at resting
  simp only [others, roused, ← Multiset.coe_add, due_coe, Multiset.coe_reverse, Multiset.coe_nil,
    ← resting]
  abel

theorem rouse_others (worker : Worker α) (own : Bool) (which : α → Bool) :
    Left worker.closing (worker.rouse own which).others worker.others := by
  have split := List.filter_append_perm (fun r : Instant × α => which r.2) worker.resting
  have resting := Multiset.coe_eq_coe.mpr (split.map Prod.snd)
  rw [List.map_append, ← Multiset.coe_add] at resting
  cases own with
  | true =>
    apply (foldl_push_others ((worker.resting.filter fun r => which r.2).map (·.2))
      { worker with resting := worker.resting.filter fun r => !which r.2 }).trans
    apply Left.of_eq
    simp only [others, ← resting]
    abel
  | false =>
    apply Left.of_eq
    simp only [rouse, others, Bool.false_eq_true, if_false, ← Multiset.coe_add, ← resting]
    abel

theorem rouse_tasks (worker : Worker α) (which : α → Bool) :
    Left worker.closing (worker.rouse false which).tasks worker.tasks :=
  (worker.rouse_others false which).add_left worker.stage.tasks

theorem rouse_eq (worker : Worker α) (own : Bool) (which : α → Bool) :
    ∃ front queue inbox, worker.rouse own which =
      ({ worker with resting := worker.resting.filter fun r => !which r.2 }).withHand
        front queue inbox := by
  cases own with
  | true => exact foldl_push_eq _ _
  | false => exact ⟨worker.front, worker.queue, _, rfl⟩

structure Takes (worker : Worker α) (task : α) (after : Worker α) : Prop where
  hand : ∃ front queue inbox, after = worker.withHand front queue inbox
  others : worker.others = {task} + after.others

theorem own?_takes {worker after : Worker α} {task : α} (h : worker.own? = some (task, after)) :
    worker.Takes task after := by
  unfold own? at h
  split at h
  · rename_i first front
    cases h
    exact ⟨⟨none, worker.queue, worker.inbox, rfl⟩, by
      simp only [others, front, Option.toList, Multiset.coe_singleton, Multiset.coe_nil]; abel⟩
  · rename_i first queue front hq
    cases h
    exact ⟨⟨worker.front, queue, worker.inbox, rfl⟩, by
      simp only [others, front, hq, ← Multiset.cons_coe, ← Multiset.singleton_add]; abel⟩
  · cases h

theorem received?_takes {worker after : Worker α} {task : α} {count : Nat}
    (h : worker.received? count = some (task, after)) : worker.Takes task after := by
  unfold received? at h
  split at h
  · cases h
  · rename_i first inbox hi
    cases h
    refine ⟨⟨worker.front, _, _, rfl⟩, ?_⟩
    have parts : (inbox : Multiset α) = inbox.take count + inbox.drop count := by
      rw [Multiset.coe_add, List.take_append_drop]
    simp only [others, hi, ← Multiset.cons_coe, ← Multiset.singleton_add, ← Multiset.coe_add, parts]
    abel

theorem next?_takes {worker after : Worker α} {task : α} {inboxFirst : Bool}
    (h : worker.next? inboxFirst = some (task, after)) : worker.Takes task after := by
  unfold next? at h
  simp only [Option.orElse_eq_orElse, Option.orElse_eq_or] at h
  split at h
  · obtain h | ⟨-, h⟩ := Option.or_eq_some_iff.mp h
    · exact received?_takes h
    · exact own?_takes h
  · obtain h | ⟨-, h⟩ := Option.or_eq_some_iff.mp h
    · exact own?_takes h
    · exact received?_takes h

theorem next?_none {worker : Worker α} {inboxFirst : Bool} (h : worker.next? inboxFirst = none) :
    worker.front = none ∧ worker.queue = [] ∧ worker.inbox = [] := by
  have both : worker.own? = none ∧ ∃ count, worker.received? count = none := by
    unfold next? at h
    simp only [Option.orElse_eq_orElse, Option.orElse_eq_or] at h
    split at h
    · obtain ⟨hr, ho⟩ := Option.or_eq_none_iff.mp h
      exact ⟨ho, _, hr⟩
    · obtain ⟨ho, hr⟩ := Option.or_eq_none_iff.mp h
      exact ⟨ho, _, hr⟩
  obtain ⟨ho, count, hr⟩ := both
  unfold own? at ho
  unfold received? at hr
  split at ho <;> split at hr <;> simp_all

end Worker
end TokenKeeper
