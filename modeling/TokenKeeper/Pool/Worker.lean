import TokenKeeper.Pool.Pace
/-! One thread and the tasks it is given. A task that the worker's own turn makes ready goes to the
front and comes next in the same turn; after a few such tasks the queue goes on. Tasks from
elsewhere come in through the inbox. -/
namespace TokenKeeper

inductive Worker.Stage (α : Type) where
  /-- Between two turns. -/
  | free
  /-- Nothing was left to do. -/
  | idle
  | busy (task : α)
  /-- Held by a task that lets go at `free`. -/
  | held (task : α) (free : Instant)
  /-- Between two tasks of one turn. -/
  | between
  | gone
deriving DecidableEq

structure Worker (α : Type) where
  stage : Worker.Stage α := .free
  /-- Turns so far, also those that found nothing to do. -/
  turns : Nat := 0
  /-- Tasks of this turn that came from the front. -/
  streak : Nat := 0
  /-- How many waits this turn may still end. -/
  credit : Nat := 0
  front : Option α := none
  queue : List α := []
  inbox : List α := []
  /-- Tasks that stepped aside when the credit was used up. -/
  aside : List α := []
  /-- Resting tasks and when they are due, in the order in which they went to rest. -/
  resting : List (Instant × α) := []
  /-- When the worker last looked for tasks that are due. -/
  looked : Instant
  pace : Pace
  closing : Bool := false
  /-- Whether the worker has found out that it closes. -/
  leaving : Bool := false
deriving DecidableEq

namespace Worker

def fresh (now : Instant) : Worker α := { looked := now, pace := .fresh now }

def maxStreak : Nat := 3
def maxCredit : Nat := 128
def maxQueue : Nat := 256

def lookEvery : Nat := 61

def submitAll (worker : Worker α) (tasks : List α) : Worker α :=
  if worker.closing then worker else { worker with inbox := worker.inbox ++ tasks }

def submit (worker : Worker α) (task : α) : Worker α := worker.submitAll [task]

/-- Puts a task at the end of the queue. A full queue passes its later half on to the inbox, and the
task too. -/
def enqueue (worker : Worker α) (task : α) : Worker α :=
  if worker.queue.length < maxQueue then { worker with queue := worker.queue ++ [task] }
  else
    { worker with queue := worker.queue.take (maxQueue / 2) }.submitAll
      (worker.queue.drop (maxQueue / 2) ++ [task])

def push (worker : Worker α) (task : α) : Worker α :=
  if worker.streak < maxStreak then
    { (worker.front.toList.foldl enqueue worker) with front := some task }
  else worker.enqueue task

def rest (worker : Worker α) (task : α) (due : Instant) : Worker α :=
  { worker with resting := worker.resting ++ [(due, task)] }

def stepAside (worker : Worker α) (task : α) : Worker α :=
  { worker with aside := worker.aside ++ [task] }

def spend (worker : Worker α) : Worker α := { worker with credit := worker.credit - 1 }

def rouse (worker : Worker α) (own : Bool) (which : α → Bool) : Worker α :=
  let woken := (worker.resting.filter fun r => which r.2).map (·.2)
  let worker := { worker with resting := worker.resting.filter fun r => !which r.2 }
  if own then woken.foldl push worker else { worker with inbox := worker.inbox ++ woken }

/-- The tasks due by `now`, by their times; those due at once in the order in which they went to
rest. -/
def due (worker : Worker α) (now : Instant) : List α :=
  ((worker.resting.filter fun r => r.1 ≤ now).mergeSort fun r s => r.1 ≤ s.1).map (·.2)

/-- Makes ready what is due, and then what stepped aside, the last one first. -/
def look (worker : Worker α) (now : Instant) : Worker α :=
  (worker.due now ++ worker.aside.reverse).foldl push
    { worker with
      resting := worker.resting.filter fun r => now < r.1
      aside := []
      looked := now }

def attend (worker : Worker α) (now : Instant) : Worker α :=
  { worker.look now with
    leaving := worker.closing
    pace := (worker.pace.close now).resume now }

def own? (worker : Worker α) : Option (α × Worker α) :=
  match worker.front, worker.queue with
  | some task, _ => some (task, { worker with front := none })
  | none, task :: queue => some (task, { worker with queue := queue })
  | none, [] => none

def received? (worker : Worker α) (count : Nat) : Option (α × Worker α) :=
  match worker.inbox with
  | [] => none
  | task :: inbox =>
    some (task, { worker with
      inbox := inbox.drop count
      queue := worker.queue ++ inbox.take count })

def next? (worker : Worker α) (inboxFirst : Bool) : Option (α × Worker α) :=
  if inboxFirst then worker.received? 0 <|> worker.own?
  else worker.own? <|> worker.received? (maxQueue / 2 - 1)

def depart (worker : Worker α) (now : Instant) : Worker α :=
  { stage := .gone, looked := now, pace := worker.pace, closing := true, leaving := true }

/-- A worker with nothing at hand looks for tasks that are due, and a closing one leaves. -/
def wake (worker : Worker α) (now : Instant) : Worker α :=
  if worker.closing then worker.depart now
  else
    let worker := worker.look now
    if worker.front.isNone && worker.inbox.isEmpty then { worker with stage := .idle }
    else { worker with stage := .free, pace := worker.pace.resume now }

def relax (worker : Worker α) (now : Instant) : Worker α :=
  let worker := { worker with pace := worker.pace.close now }
  if worker.leaving || worker.aside.isEmpty then worker.wake now
  else { worker.look now with stage := .free, pace := worker.pace.resume now }

def turn (worker : Worker α) (now : Instant) : Worker α :=
  let worker := { worker with turns := worker.turns + 1 }
  let worker := if worker.turns % lookEvery = 0 then worker.attend now else worker
  let inboxFirst := worker.turns % worker.pace.every = 0
  let worker := if inboxFirst then { worker with pace := worker.pace.adapt } else worker
  match worker.next? inboxFirst with
  | some (task, worker) =>
    { worker with stage := .busy task, credit := maxCredit, pace := worker.pace.count }
  | none => worker.relax now

/-- Goes on with the turn: who stands at the front comes next, as long as there is credit. -/
def follow (worker : Worker α) : Worker α :=
  match worker.front with
  | none => { worker with stage := .free, streak := 0 }
  | some task =>
    let worker := { worker with front := none }
    if worker.credit = 0 then { worker.enqueue task with stage := .free, streak := 0 }
    else { worker with stage := .busy task, streak := worker.streak + 1 }

def advance (worker : Worker α) (now : Instant) : Worker α :=
  match worker.stage with
  | .free => if worker.leaving then worker.depart now else worker.turn now
  | .between => worker.follow
  | .idle => worker.wake now
  | .held task _ => { worker with stage := .busy task }
  | .busy _ | .gone => worker

def isReady (worker : Worker α) (now : Instant) : Bool :=
  match worker.stage with
  | .free | .between | .busy _ => true
  | .idle =>
    worker.closing || !worker.inbox.isEmpty || worker.resting.any fun r => decide (r.1 ≤ now)
  | .held _ free => free ≤ now
  | .gone => false

def isGone (worker : Worker α) : Bool :=
  match worker.stage with
  | .gone => true
  | _ => false

def wakes (worker : Worker α) : Option Instant :=
  match worker.stage with
  | .idle => (worker.resting.map (·.1)).min?
  | .held _ free => some free
  | _ => none

end Worker
end TokenKeeper
