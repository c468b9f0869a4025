import Mathlib.Data.List.Basic
import TokenKeeper.Proofs.Secrecy.Worker
import TokenKeeper.World.Caches
/-! Worlds with other texts in the places of their tokens. Only what keeps tokens changes: calls and
what came of them, tasks that will take up a reply, published tokens, and readers that got one. -/
namespace TokenKeeper

/-- Other texts for tokens. An empty text stays empty, and no other becomes so. -/
structure Disguise where
  text : String → String
  empty : ∀ s, text s = "" ↔ s = ""

theorem map_modify {f : α → α} {f' : β → β} {g : α → β} (h : ∀ x, g (f x) = f' (g x))
    (l : List α) (i : Nat) : (l.modify i f).map g = (l.map g).modify i f' := by
  apply List.ext_getElem?
  intro j
  rw [List.getElem?_map, List.getElem?_modify, List.getElem?_modify, List.getElem?_map]
  cases l[j]? <;> simp
  split <;> simp [h]

theorem mapIdx_modify {f : α → α} {f' : β → β} {g : Nat → α → β} {i : Nat}
    (h : ∀ x, g i (f x) = f' (g i x)) (l : List α) :
    (l.modify i f).mapIdx g = (l.mapIdx g).modify i f' := by
  apply List.ext_getElem?
  intro j
  rw [List.getElem?_mapIdx, List.getElem?_modify, List.getElem?_modify, List.getElem?_mapIdx]
  cases l[j]? <;> simp
  split
  · rename_i same
    simp [← same, h]
  · rfl

section Pieces
variable (d : Disguise)

def AccessToken.disguise (token : AccessToken) : AccessToken := ⟨d.text token.text⟩

def Reply.disguise : Reply → Reply
  | resource r => resource { r with token := r.token.map (AccessToken.disguise d) }
  | failure cause => failure cause
  | panic => panic

theorem Reply.token_disguise (reply : Reply) :
    (reply.disguise d).token = reply.token.map fun r => (r.1.disguise d, r.2) := by
  cases reply with
  | resource r =>
    obtain ⟨token, lifetime⟩ := r
    cases token with
    | none => rfl
    | some token =>
      by_cases empty : token.text = "" <;>
        simp [disguise, Reply.token, Resource.usable, AccessToken.disguise, d.empty, empty,
          Option.filter, Except.map]
  | failure | panic => rfl

def Call.disguise (call : Call) : Call := { call with reply := call.reply.disguise d }

def Issuer.disguise (issuer : Issuer) : Issuer := fun n => (issuer n).disguise d

def Attempt.disguise (attempt : Attempt) : Attempt :=
  { attempt with ended := attempt.ended.map fun e => (e.1, e.2.disguise d) }

def Issued.disguise (issued : Issued) : Issued := { issued with token := issued.token.disguise d }

def Cache.disguise (cache : Cache) : Cache :=
  { cache with
    issuer := cache.issuer.disguise d
    attempts := cache.attempts.map (Attempt.disguise d)
    current := cache.current.map (Issued.disguise d) }

def Reader.Stage.disguise : Reader.Stage → Reader.Stage
  | served asked time token => served asked time (token.map (AccessToken.disguise d))
  | stage => stage

end Pieces

-- Each cache has a disguise of its own, which its tokens keep wherever they are.
variable (d : CacheId → Disguise)

def Reader.disguise (reader : Reader) : Reader :=
  { reader with stage := reader.stage.disguise (d reader.cache) }

def Task.disguise : Task → Task
  | call run c pauses reply => call run c pauses (reply.disguise (d c))
  | conclude run c reply => conclude run c (reply.disguise (d c))
  | task => task

theorem Task.disguise_isPendingOf (s : SchedulerId) (task : Task) :
    (task.disguise d).isPendingOf s = task.isPendingOf s := by
  cases task <;> rfl

def Pool.disguise (pool : Pool) : Pool := { pool with worker := pool.worker.map (Task.disguise d) }

def World.disguise (w : World) : World :=
  { w with
    pools := w.pools.map (Pool.disguise d)
    caches := w.caches.mapIdx fun c => Cache.disguise (d c)
    readers := w.readers.map (Reader.disguise d) }

namespace World
variable (w : World)

@[simp] theorem disguise_now : (w.disguise d).now = w.now := rfl
@[simp] theorem disguise_verbosity : (w.disguise d).verbosity = w.verbosity := rfl
@[simp] theorem disguise_log : (w.disguise d).log = w.log := rfl
@[simp] theorem disguise_schedulers : (w.disguise d).schedulers = w.schedulers := rfl
@[simp] theorem disguise_outage : (w.disguise d).outage = w.outage := rfl
@[simp] theorem disguise_pools : (w.disguise d).pools = w.pools.map (Pool.disguise d) := rfl
@[simp] theorem disguise_caches :
    (w.disguise d).caches = w.caches.mapIdx fun c => Cache.disguise (d c) := rfl
@[simp] theorem disguise_readers :
    (w.disguise d).readers = w.readers.map (Reader.disguise d) := rfl

@[simp] theorem disguise_note (notice : Notice) :
    (w.note notice).disguise d = (w.disguise d).note notice := by
  unfold note
  cases keeps : w.verbosity.keeps notice <;> simp [keeps, disguise]

@[simp] theorem disguise_notes (notices : List Notice) :
    (w.notes notices).disguise d = (w.disguise d).notes notices := by
  unfold notes
  induction notices generalizing w with
  | nil => rfl
  | cons notice notices ih => simp [ih]

theorem disguise_onPool (p : PoolId) {f g : Pool → Pool}
    (h : ∀ pool, (f pool).disguise d = g (pool.disguise d)) :
    (w.onPool p f).disguise d = (w.disguise d).onPool p g := by
  simp [onPool, disguise, map_modify h]

theorem disguise_onWorker (p : PoolId) {f g : Worker Task → Worker Task}
    (h : ∀ worker, (f worker).map (Task.disguise d) = g (worker.map (Task.disguise d))) :
    (w.onWorker p f).disguise d = (w.disguise d).onWorker p g := by
  apply disguise_onPool
  intro pool
  simp [Pool.disguise, h]

@[simp] theorem disguise_onScheduler (s : SchedulerId) (f : Scheduler → Scheduler) :
    (w.onScheduler s f).disguise d = (w.disguise d).onScheduler s f := rfl

theorem disguise_onCache (c : CacheId) {f g : Cache → Cache}
    (h : ∀ cache, (f cache).disguise (d c) = g (cache.disguise (d c))) :
    (w.onCache c f).disguise d = (w.disguise d).onCache c g := by
  simp [onCache, disguise, mapIdx_modify (g := fun c => Cache.disguise (d c)) h]

@[simp] theorem disguise_threads (p : PoolId) : (w.disguise d).threads p = w.threads p := by
  simp [threads, Function.comp_def, Pool.disguise, Pool.threads]

@[simp] theorem disguise_submit (actor : Option PoolId) (p : PoolId) (task : Task) :
    (w.submit actor p task).disguise d = (w.disguise d).submit actor p (task.disguise d) := by
  apply disguise_onWorker
  intro worker
  split <;> simp [Worker.push_map, Worker.submit_map]

end World
end TokenKeeper
