import TokenKeeper.Proofs.Secrecy.Waiting
import TokenKeeper.Proofs.World.Operation
import TokenKeeper.Proofs.World.Visitors
/-! Every operation does the same to a world in disguise as to the world itself, and what shows is
the same. -/
namespace TokenKeeper

def Disguise.Fits (d : Disguise) : Prop :=
  ∀ s, (Header.ofToken ⟨d.text s⟩).isSome = (Header.ofToken ⟨s⟩).isSome

def Operation.disguise (d : Disguise) : Operation → Operation
  | openCache config issuer => openCache config (issuer.disguise d)
  | operation => operation

theorem Header.redact_ofToken {token : AccessToken} {header : Header}
    (h : ofToken token = some header) : header.redact = ⟨"authorization", "", true⟩ := by
  unfold ofToken at h
  dsimp only at h
  split at h <;> cases h
  rfl

theorem Header.attach_disguise {d : Disguise} (fits : d.Fits) (token : Option AccessToken)
    (headers : List Header) :
    (attach (token.map (AccessToken.disguise d)) headers).1.map redact =
        (attach token headers).1.map redact ∧
      (attach (token.map (AccessToken.disguise d)) headers).2 = (attach token headers).2 := by
  cases token with
  | none => simp
  | some token =>
    have same := fits token.text
    cases fit : ofToken token with
    | none =>
      rw [fit, Option.isSome_none, Option.isSome_eq_false_iff, Option.isNone_iff_eq_none] at same
      simp [attach, AccessToken.disguise, fit, same]
    | some header =>
      rw [fit, Option.isSome_some] at same
      obtain ⟨header', fit'⟩ := Option.isSome_iff_exists.mp same
      simp [attach, AccessToken.disguise, fit, fit', redact_ofToken fit, redact_ofToken fit']

namespace World
variable (d : CacheId → Disguise) (w : World)

section Pools

theorem disguise_poolFor (identity : Identity) :
    (w.disguise d).poolFor identity =
      ((w.poolFor identity).1, (w.poolFor identity).2.disguise d) := by
  have found : (w.disguise d).pools.findIdx?
        (fun pool => pool.registered && pool.threads == identity.threads) =
      w.pools.findIdx? fun pool => pool.registered && pool.threads == identity.threads := by
    simp [List.findIdx?_map, Function.comp_def, Pool.disguise, Pool.threads]
  unfold poolFor
  simp only [found, disguise_outage]
  by_cases empty : identity.name = ""
  · simp [empty]
  · cases w.pools.findIdx? fun pool => pool.registered && pool.threads == identity.threads with
    | some p => simp [empty]
    | none =>
      cases w.outage with
      | some source => simp [empty]
      | none =>
        by_cases unnamable : '\x00' ∈ identity.name.toList
        · simp [empty, unnamable]
        · simp [empty, unnamable]
          simp [disguise, Pool.disguise]
          rw [Worker.map_fresh]

theorem disguise_keepHandle (p : PoolId) :
    (w.keepHandle p).disguise d = (w.disguise d).keepHandle p :=
  disguise_onPool d w p fun _ => rfl

theorem disguise_dropHandle (p : PoolId) :
    (w.disguise d).dropHandle p = (w.dropHandle p).map (disguise d) := by
  have drops : (w.onPool p fun pool => { pool with handles := pool.handles - 1 }).disguise d =
      (w.disguise d).onPool p fun pool => { pool with handles := pool.handles - 1 } :=
    disguise_onPool d w p fun _ => rfl
  unfold dropHandle
  rw [← disguise_seeOff, disguise_release, drops]

theorem disguise_unregister (p : PoolId) :
    (w.disguise d).unregister p = (w.unregister p).map (disguise d) := by
  have drops : (w.onPool p fun pool => { pool with registered := false }).disguise d =
      (w.disguise d).onPool p fun pool => { pool with registered := false } :=
    disguise_onPool d w p fun _ => rfl
  have held : (w.disguise d).pools[p]?.any (·.registered) = w.pools[p]?.any (·.registered) := by
    rw [getElem?_disguise_pools]
    cases w.pools[p]? <;> rfl
  unfold unregister
  simp only [held]
  split
  · rw [← disguise_seeOff, disguise_release, drops]
  · rfl

theorem disguise_dropRegistry (order : List PoolId) :
    (w.disguise d).dropRegistry order = (w.dropRegistry order).map (disguise d) := by
  unfold dropRegistry
  induction order generalizing w with
  | nil => rfl
  | cons p rest ih =>
    rw [List.foldlM_cons, List.foldlM_cons, disguise_unregister]
    cases w.unregister p with
    | none => rfl
    | some next => exact ih next

theorem disguise_inquire (p : PoolId) :
    (w.disguise d).inquire p = (w.inquire p).map (disguise d) := by
  have before : ((w.disguise d).pools[p]?.map (·.answered)).getD 0 =
      (w.pools[p]?.map (·.answered)).getD 0 := by
    rw [getElem?_disguise_pools]
    cases w.pools[p]? <;> rfl
  unfold inquire
  rw [before, ← disguise_await (d := d)]
  · simp [Task.disguise]
  · intro w
    rw [getElem?_disguise_pools]
    cases w.pools[p]? <;> rfl

theorem disguise_workShifts (p : PoolId) (length : Span) (shifts : List (List Nat)) :
    workShifts p length shifts (w.disguise d) =
      (workShifts p length shifts w).map (disguise d) := by
  induction shifts generalizing w with
  | nil => rfl
  | cons shift rest ih =>
    unfold workShifts
    rw [disguise_advance]
    cases w.advance length with
    | none => rfl
    | some next =>
      have dismisses := disguise_onPool d next p
        (f := fun pool => pool.dismiss next.now (shift.drop (rest.headD []).length))
        (g := fun pool => pool.dismiss next.now (shift.drop (rest.headD []).length)) fun _ => rfl
      exact (congrArg (workShifts p length rest) dismisses.symm).trans (ih _)

theorem disguise_block (p : PoolId) (count : Nat) (length : Span) :
    (w.disguise d).block p count length =
      (w.block p count length).map fun r => (r.1, r.2.disguise d) := by
  have enlists (pool : Pool) : (pool.disguise d).enlist w.now (min count Pool.maxHelpers) =
      ((pool.enlist w.now (min count Pool.maxHelpers)).1,
        (pool.enlist w.now (min count Pool.maxHelpers)).2.disguise d) := rfl
  unfold block
  rw [getElem?_disguise_pools]
  cases w.pools[p]? with
  | none => rfl
  | some pool =>
    have called : (pool.disguise d).threadName = pool.threadName := rfl
    simp only [Option.map_some, disguise_now, enlists, called]
    obtain ⟨numbers, busy⟩ := pool.enlist w.now (min count Pool.maxHelpers)
    have hires := disguise_onPool d w p
      (f := fun pool => { pool with helpers := busy.helpers, threadCount := busy.threadCount })
      (g := fun pool => { pool with helpers := busy.helpers, threadCount := busy.threadCount })
      fun _ => rfl
    have works := (congrArg (workShifts p length (Pool.shifts numbers count)) hires.symm).trans
      (disguise_workShifts d _ p length _)
    apply (congrArg (Option.bind · _) works).trans
    dsimp only
    cases workShifts p length (Pool.shifts numbers count) _ <;> rfl

end Pools

section Schedulers

theorem disguise_addScheduler (p : PoolId) (job : Job) :
    (w.disguise d).addScheduler p job =
      ((w.addScheduler p job).1, (w.addScheduler p job).2.disguise d) := rfl

theorem disguise_retire (s : SchedulerId) :
    (w.disguise d).retire s = (w.retire s).map fun r => (r.1, r.2.disguise d) := by
  unfold retire
  simp only [disguise_shutdown, disguise_schedulers]
  cases w.schedulers[s]?.bind (·.pool) with
  | none => rfl
  | some p =>
    simp only [disguise_seeOff]
    cases seeOff w p (w.shutdown none s).1 <;> rfl

theorem disguise_dropScheduler (s : SchedulerId) :
    (w.disguise d).dropScheduler s = (w.dropScheduler s).map (disguise d) := by
  unfold dropScheduler
  rw [← disguise_onScheduler, disguise_retire]
  cases (w.onScheduler s fun scheduler => { scheduler with dropped := true }).retire s <;> rfl

end Schedulers

section Caches
variable (c : CacheId)

theorem poolFor_caches (identity : Identity) : (w.poolFor identity).2.caches = w.caches := by
  unfold poolFor
  dsimp only
  repeat' split
  all_goals simp

theorem disguise_openCache (config : Config) (issuer : Issuer) :
    (w.disguise d).openCache config (issuer.disguise (d w.caches.length)) =
      ((w.openCache config issuer).1, (w.openCache config issuer).2.disguise d) := by
  have caches := w.poolFor_caches config.pool
  unfold openCache
  rw [disguise_poolFor]
  generalize w.poolFor config.pool = tried at caches
  obtain ⟨result, found⟩ := tried
  cases result with
  | error error => rfl
  | ok p =>
    dsimp only at caches ⊢
    rw [← caches, disguise_addScheduler]
    simp only [disguise_caches, List.length_mapIdx, disguise_start]
    simp [disguise, List.mapIdx_append, Cache.disguise, addScheduler]

theorem disguise_close : (w.disguise d).close c = (w.close c).map (disguise d) := by
  unfold close
  rw [getElem?_disguise_caches]
  cases w.caches[c]? with
  | none => rfl
  | some cache =>
    simp only [Option.map_some, Cache.disguise, disguise_retire]
    cases w.retire cache.scheduler with
    | none => rfl
    | some r =>
      obtain ⟨done, after⟩ := r
      cases done <;> simp

theorem disguise_dropCache : (w.disguise d).dropCache c = (w.dropCache c).map (disguise d) := by
  unfold dropCache
  rw [disguise_close]
  cases w.close c with
  | none => rfl
  | some after =>
    have drops := disguise_onCache d after c (f := fun cache => { cache with dropped := true })
      (g := fun cache => { cache with dropped := true }) fun _ => rfl
    simp [drops]

theorem disguise_expect (blocking : Bool) (times : List Instant) :
    (w.expect c blocking times).disguise d = (w.disguise d).expect c blocking times := by
  simp [expect, disguise, Reader.disguise, Reader.Stage.disguise]

theorem disguise_allServed :
    (w.disguise d).readers.all Reader.isServed = w.readers.all Reader.isServed := by
  simp [List.all_map, Function.comp_def]

theorem disguise_serveAll : (w.disguise d).serveAll = w.serveAll.map (disguise d) :=
  disguise_await w (disguise_allServed d) _

theorem disguise_answers {known : Nat}
    (own : ∀ reader ∈ w.readers.drop known, reader.cache = c) :
    (w.disguise d).answers known =
      (w.answers known).map fun a => (a.1.map (AccessToken.disguise (d c)), a.2) := by
  simp only [answers, disguise_readers, ← List.map_drop, List.map_map]
  apply List.map_congr_left
  intro reader member
  have mine := own reader member
  cases stage : reader.stage <;>
    simp [Reader.answer, Reader.disguise, Reader.Stage.disguise, stage, mine]

variable {w} in
theorem expect_own {after : World} {blocking : Bool} {times : List Instant}
    (same : after.readers.map (·.cache) = (w.expect c blocking times).readers.map (·.cache)) :
    ∀ reader ∈ after.readers.drop w.readers.length, reader.cache = c := by
  have dropped := congrArg (List.drop w.readers.length) same
  simp only [expect, List.map_append, List.map_map, ← List.map_drop] at dropped
  rw [List.drop_left' (by simp)] at dropped
  intro reader member
  have there := List.mem_map_of_mem (f := (·.cache)) member
  rw [dropped] at there
  obtain ⟨time, -, mine⟩ := List.mem_map.mp there
  exact mine.symm

theorem disguise_visit (blocking : Bool) (times : List Instant) :
    (w.disguise d).visit c blocking times = (w.visit c blocking times).map fun r =>
      (r.1.map fun a => (a.1.map (AccessToken.disguise (d c)), a.2), r.2.disguise d) := by
  unfold visit
  by_cases empty : times.isEmpty = true
  · simp [empty]
  · simp only [empty]
    rw [← disguise_expect, disguise_serveAll]
    cases waited : (w.expect c blocking times).serveAll with
    | none => rfl
    | some after =>
      have own := expect_own c (awaitFrom_stays waited)
      simp [disguise_answers d after c own]

theorem disguise_read (blocking : Bool) :
    (w.disguise d).read c blocking = (w.read c blocking).map fun r =>
      (r.1.map (AccessToken.disguise (d c)), r.2.disguise d) := by
  have token (after : World) (own : ∀ reader ∈ after.readers.drop w.readers.length,
      reader.cache = c) : ((after.disguise d).answers w.readers.length).head?.bind (·.1) =
        ((after.answers w.readers.length).head?.bind (·.1)).map (AccessToken.disguise (d c)) := by
    rw [disguise_answers d after c own]
    cases after.answers w.readers.length <;> simp
  have known : (w.disguise d).readers.length = w.readers.length := by simp
  have own := attend_stays (w.expect c blocking [w.now]) w.readers.length
  unfold World.read
  simp only [known, disguise_now, ← disguise_expect, ← disguise_attend, disguise_serveAll]
  generalize (w.expect c blocking [w.now]).attend w.readers.length = came at own
  rw [disguise_allServed]
  by_cases all : came.readers.all Reader.isServed = true
  · simp only [all, if_true]
    exact congrArg (fun token => some (token, came.disguise d)) (token came (expect_own c own))
  · simp only [all]
    cases waited : came.serveAll with
    | none => rfl
    | some after =>
      have own := expect_own c ((awaitFrom_stays waited).trans own)
      exact congrArg (fun token => some (token, after.disguise d)) (token after own)

variable {c} in
theorem disguise_forward (fits : (d c).Fits) (headers : List Header) :
    ((w.disguise d).forward c headers).map (fun r => (r.1.map Header.redact, r.2)) =
      (w.forward c headers).map fun r => (r.1.map Header.redact, r.2.disguise d) := by
  unfold forward
  by_cases carries : headers.any Header.isAuthorization = true
  · simp [carries]
  · simp only [carries, disguise_read]
    cases w.read c false with
    | none => rfl
    | some r =>
      obtain ⟨sent, notices⟩ := Header.attach_disguise fits r.1 headers
      simp [sent, notices]

end Caches

/-- An operation does the same, answers the same, and ends or not, whatever the texts are. -/
theorem disguise_operate (operation : Operation)
    (fits : ∀ c headers, operation = .forward c headers → (d c).Fits) :
    ((w.disguise d).operate (operation.disguise (d w.caches.length))).map
        (fun r => (r.1.redact, r.2)) =
      (w.operate operation).map fun r => (r.1.redact, r.2.disguise d) := by
  cases operation with
  | openCache config issuer =>
    simp only [operate, Operation.disguise, disguise_openCache]
    obtain ⟨_ | _, after⟩ := w.openCache config issuer <;> rfl
  | read c blocking =>
    simp [operate, Operation.disguise, disguise_read, Function.comp_def, Answer.redact]
  | visit c blocking delays =>
    simp [operate, Operation.disguise, disguise_visit, Function.comp_def, Answer.redact]
  | forward c headers =>
    have forwards := congrArg (Option.map fun r => (Answer.sent r.1, r.2))
      (disguise_forward d w (fits c headers rfl) headers)
    simpa [operate, Operation.disguise, Function.comp_def, Answer.redact] using forwards
  | openScheduler identity program =>
    simp only [operate, Operation.disguise, disguise_poolFor]
    obtain ⟨_ | _, after⟩ := w.poolFor identity <;> rfl
  | takeHandle identity =>
    simp only [operate, Operation.disguise, disguise_poolFor]
    obtain ⟨_ | p, after⟩ := w.poolFor identity
    · rfl
    · simp [← disguise_keepHandle, disguise_inquire, Function.comp_def]
  | close c => simp [operate, Operation.disguise, disguise_close, Function.comp_def]
  | dropCache c => simp [operate, Operation.disguise, disguise_dropCache, Function.comp_def]
  | advance length => simp [operate, Operation.disguise, disguise_advance, Function.comp_def]
  | start s => simp [operate, Operation.disguise]
  | schedule s delay => simp [operate, Operation.disguise]
  | shutdown s => simp [operate, Operation.disguise, disguise_retire, Function.comp_def]
  | dropScheduler s =>
    simp [operate, Operation.disguise, disguise_dropScheduler, Function.comp_def]
  | dropHandle p => simp [operate, Operation.disguise, disguise_dropHandle, Function.comp_def]
  | occupy p pause => simp [operate, Operation.disguise, occupy, Task.disguise]
  | block p count length =>
    simp [operate, Operation.disguise, disguise_block, Function.comp_def]
  | dropRegistry order =>
    simp [operate, Operation.disguise, disguise_dropRegistry, Function.comp_def]
  | setOutage source => rfl

theorem map_disguise_caches {f : Cache → α} (h : ∀ e cache, f (Cache.disguise e cache) = f cache) :
    (w.disguise d).caches.map f = w.caches.map f := by
  apply List.ext_getElem?
  intro c
  rw [List.getElem?_map, getElem?_disguise_caches, List.getElem?_map]
  cases w.caches[c]? <;> simp [h]

@[simp] theorem disguise_sight : (w.disguise d).sight = w.sight := by
  have fetches := map_disguise_caches d w (f := Cache.intervals) fun e cache => by
    simp [Cache.intervals, Cache.disguise, Attempt.disguise, Function.comp_def]
  have ready := map_disguise_caches d w (f := (·.ready)) fun e cache => rfl
  have tokens := map_disguise_caches d w
    (f := fun cache => cache.current.map fun issued => (issued.statusAt, issued.refreshAt))
    fun e cache => by
      simp only [Cache.disguise, Option.map_map]
      rfl
  unfold sight
  rw [fetches, ready, tokens]
  rfl

end World
end TokenKeeper
