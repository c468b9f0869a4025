import TokenKeeper.Proofs.Trace.HandedOver
import TokenKeeper.Proofs.World.Runs
/-! Runs in which only workers, readers and whoever asks for a run tell of lengths of time. Whatever
is asked for from outside is done in this way. -/
namespace TokenKeeper.World

inductive Act : World → World → Prop where
  | pass {w w'} (pass : Pass w w') : Act w w'
  | arrive {w i reader time} (hi : w.readers[i]? = some reader)
      (coming : reader.stage = .coming time) (due : time ≤ w.now) : Act w (w.attend i)
  | schedule {w s scheduler program} (hs : w.schedulers[s]? = some scheduler)
      (job : scheduler.job = .script program) (delay : Span) : Act w (w.schedule none s delay)
  /-- Nothing else from outside tells of a length of time. -/
  | silent {w w'} (step : Step w w') (same : w'.timings = w.timings) : Act w w'

abbrev Acts : World → World → Prop := Relation.ReflTransGen Act

variable {w w' : World}

theorem Act.step (act : Act w w') : Step w w' := by
  cases act with
  | pass pass => exact pass.step
  | arrive hi coming due => exact .arrive hi coming due
  | schedule hs job delay => exact .schedule hs job delay
  | silent step => exact step

theorem Acts.later (acts : Acts w w') : Later w w' :=
  Relation.ReflTransGen.mono (fun _ _ act => act.step) _ _ acts

theorem Passes.acts (passes : Passes w w') : Acts w w' :=
  Relation.ReflTransGen.mono (fun _ _ pass => .pass pass) _ _ passes

/-- A notice of a length of time says what its step does. -/
theorem Act.bears (h : w.Sound) (act : Act w w') : Tells w w' (Bears w w') := by
  cases act with
  | pass pass =>
    cases pass with
    | move moved =>
      obtain ⟨p, pool, hp, -, rfl⟩ | ⟨-, i, -, -, -, -, -, rfl⟩ := move?_cases moved
      · exact h.work_bears hp
      · exact attend_bears w i
    | tick => exact .silent rfl
  | arrive => exact attend_bears w _
  | schedule => exact h.schedule_bears none _ _
  | silent _ same => exact .silent same

section Waits
variable {p : PoolId}

theorem await_acts (h : Reachable w) {stop : World → Bool} {limit : Option Instant}
    (waited : w.await stop limit = some w') : Acts w w' := (awaitFrom_passes h waited).1.acts

theorem advance_acts (h : Reachable w) {length : Span} (waited : w.advance length = some w') :
    Acts w w' := await_acts h waited

theorem seeOff_acts (h : Reachable w) {before : World} (waited : seeOff before p w = some w') :
    Acts w w' := by
  unfold seeOff at waited
  dsimp only at waited
  split at waited
  · exact await_acts h waited
  · cases waited
    exact .refl

theorem silent_seeOff_acts (h : Reachable w) {middle before : World} (step : Step w middle)
    (same : middle.timings = w.timings) (waited : seeOff before p middle = some w') : Acts w w' :=
  .head (.silent step same) (seeOff_acts (h.later (.single step)) waited)

end Waits

section Pools
variable {p : PoolId}

theorem poolFor_acts {identity : Identity} {result : Except PoolError PoolId}
    (h : w.poolFor identity = (result, w')) : Acts w w' := by
  cases result with
  | error error => rw [poolFor_error h]
  | ok p =>
    obtain ⟨rfl | ⟨notice, kind, rfl⟩, -⟩ := poolFor_ok h
    · exact .refl
    · have silent := w.poolFor_timings identity
      rw [h] at silent
      exact .tail (.single (.silent (.openPool identity) rfl)) (.silent (.note kind) silent)

theorem dropHandle_acts (h : Reachable w) (dropped : w.dropHandle p = some w') : Acts w w' :=
  silent_seeOff_acts h (.giveHandle p) (release_timings _ _) dropped

theorem unregister_acts (h : Reachable w) (dropped : w.unregister p = some w') : Acts w w' := by
  unfold unregister at dropped
  split at dropped
  · exact silent_seeOff_acts h (.unregister p) (release_timings _ _) dropped
  · cases dropped
    exact .refl

theorem dropRegistry_acts (h : Reachable w) (order : List PoolId)
    (dropped : w.dropRegistry order = some w') : Acts w w' := by
  unfold dropRegistry at dropped
  induction order generalizing w with
  | nil =>
    cases dropped
    exact .refl
  | cons p rest ih =>
    rw [List.foldlM_cons] at dropped
    obtain ⟨next, first, others⟩ := Option.bind_eq_some_iff.mp dropped
    have acts := unregister_acts h first
    exact acts.trans (ih (h.later acts.later) others)

theorem inquire_acts (h : Reachable w) (asked : w.inquire p = some w') : Acts w w' := by
  have step : Step w (w.submit none p .inquiry) := .inquire p
  exact .head (.silent step rfl) (await_acts (h.later (.single step)) asked)

theorem workShifts_acts (h : Reachable w) {length : Span} {shifts : List (List Nat)}
    (worked : workShifts p length shifts w = some w') : Acts w w' := by
  induction shifts generalizing w with
  | nil =>
    cases worked
    exact .refl
  | cons shift rest ih =>
    obtain ⟨next, waited, others⟩ := Option.bind_eq_some_iff.mp worked
    have step : Step next (next.onPool p fun pool =>
        pool.dismiss next.now (shift.drop (rest.headD []).length)) :=
      .staff p (fun pool => (pool.dismiss next.now (shift.drop (rest.headD []).length)).helpers)
        fun pool => pool.threadCount
    have acts : Acts w _ := (advance_acts h waited).tail (.silent step rfl)
    exact acts.trans (ih (h.later acts.later) others)

theorem block_acts (h : Reachable w) {count : Nat} {length : Span} {names : List String}
    (blocked : w.block p count length = some (names, w')) : Acts w w' := by
  unfold block at blocked
  split at blocked
  · cases blocked
  · rename_i pool hp
    obtain ⟨done, worked, rest⟩ := Option.bind_eq_some_iff.mp blocked
    cases rest
    have step := Step.staff (w := w) p
      (fun _ => (pool.enlist w.now (min count Pool.maxHelpers)).2.helpers)
      fun _ => (pool.enlist w.now (min count Pool.maxHelpers)).2.threadCount
    exact .head (.silent step rfl) (workShifts_acts (h.later (.single step)) worked)

end Pools

section Schedulers
variable {s : SchedulerId}

theorem retire_acts (h : Reachable w) {done : Bool} (retired : w.retire s = some (done, w')) :
    Acts w w' := by
  have shut : Step w (w.shutdown none s).1 := .shutdown s
  have silent : Act w (w.shutdown none s).1 := .silent shut (shutdown_timings ..)
  unfold retire at retired
  dsimp only at retired
  split at retired
  · cases retired
    exact .single silent
  · obtain ⟨after, waited, rest⟩ := Option.bind_eq_some_iff.mp retired
    cases rest
    exact .head silent (seeOff_acts (h.later (.single shut)) waited)

theorem dropScheduler_acts (h : Reachable w) {scheduler : Scheduler}
    {program : Nat → List Action} (hs : w.schedulers[s]? = some scheduler)
    (job : scheduler.job = .script program) (dropped : w.dropScheduler s = some w') :
    Acts w w' := by
  obtain ⟨⟨done, after⟩, retired, rest⟩ := Option.bind_eq_some_iff.mp dropped
  cases rest
  have step : Step w (w.onScheduler s fun scheduler => { scheduler with dropped := true }) :=
    .dropScheduler hs job
  exact .head (.silent step rfl) (retire_acts (h.later (.single step)) retired)

end Schedulers

section Caches
variable {c : CacheId}

theorem openCache_acts {config : Config} {issuer : Issuer} {result : Except PoolError CacheId}
    (h : w.openCache config issuer = (result, w')) : Acts w w' := by
  cases result with
  | error error => rw [openCache_error h]
  | ok c =>
    obtain ⟨p, opened, found, -, rfl⟩ := openCache_ok h
    have had := w.poolFor_timings config.pool
    rw [found] at had
    exact .single (.silent (.openCache h) ((start_timings ..).trans had))

theorem close_acts (h : Reachable w) (closed : w.close c = some w') : Acts w w' := by
  unfold close at closed
  split at closed
  · cases closed
    exact .refl
  · obtain ⟨⟨done, after⟩, retired, rest⟩ := Option.bind_eq_some_iff.mp closed
    cases rest
    refine (retire_acts h retired).trans ?_
    split
    · exact .single (.silent (.note rfl) (note_silent _ rfl))
    · exact .refl

theorem dropCache_acts (h : Reachable w) (dropped : w.dropCache c = some w') : Acts w w' := by
  obtain rfl | ⟨closed, closing, -, step, rfl⟩ := dropCache_closes h dropped
  · exact .refl
  · exact .tail (close_acts h closing) (.silent step rfl)

theorem visit_acts (h : Reachable w) (hc : c < w.caches.length) {blocking : Bool}
    {times : List Instant} (later : ∀ time ∈ times, w.now ≤ time)
    {answers : List (Option AccessToken × Instant)}
    (visited : w.visit c blocking times = some (answers, w')) : Acts w w' := by
  unfold visit at visited
  split at visited
  · cases visited
    exact .refl
  · obtain ⟨after, served, rest⟩ := Option.bind_eq_some_iff.mp visited
    cases rest
    have step : Step w (w.expect c blocking times) := .expect blocking hc later
    exact .head (.silent step rfl) (await_acts (h.later (.single step)) served)

theorem read_acts (h : Reachable w) (hc : c < w.caches.length) {blocking : Bool}
    {token : Option AccessToken} (got : w.read c blocking = some (token, w')) : Acts w w' := by
  have expect : Step w (w.expect c blocking [w.now]) :=
    .expect blocking hc fun time member => (List.mem_singleton.mp member).ge
  have arrive : Act (w.expect c blocking [w.now])
      ((w.expect c blocking [w.now]).attend w.readers.length) :=
    .arrive List.getElem?_concat_length rfl le_rfl
  have came : Acts w ((w.expect c blocking [w.now]).attend w.readers.length) :=
    .head (.silent expect rfl) (.single arrive)
  refine came.trans ?_
  unfold World.read at got
  dsimp only at got
  split at got
  · cases got
    exact .refl
  · obtain ⟨after, served, rest⟩ := Option.bind_eq_some_iff.mp got
    cases rest
    exact await_acts (h.later came.later) served

theorem notes_acts {notices : List Notice}
    (kinds : ∀ notice ∈ notices, notice.isElapsed = false ∧ notice.length? = none) :
    Acts w (w.notes notices) := by
  induction notices generalizing w with
  | nil => exact .refl
  | cons notice rest ih =>
    obtain ⟨kind, silent⟩ := kinds notice List.mem_cons_self
    exact .head (.silent (.note kind) (note_silent _ silent))
      (ih fun other member => kinds other (List.mem_cons_of_mem _ member))

theorem forward_acts (h : Reachable w) (hc : c < w.caches.length) {headers sent : List Header}
    (forwarded : w.forward c headers = some (sent, w')) : Acts w w' := by
  unfold forward at forwarded
  split at forwarded
  · cases forwarded
    exact .single (.silent (.note rfl) (note_silent _ rfl))
  · obtain ⟨⟨token, after⟩, got, rest⟩ := Option.bind_eq_some_iff.mp forwarded
    cases rest
    refine (read_acts h hc got).trans (notes_acts fun notice member => ?_)
    split at member
    · exact List.mem_singleton.mp member ▸ ⟨rfl, rfl⟩
    · split at member
      · cases member
      · exact List.mem_singleton.mp member ▸ ⟨rfl, rfl⟩

end Caches

def Suits (w : World) : Operation → Prop
  | .read c _ | .visit c _ _ | .forward c _ => c < w.caches.length
  | .start s | .schedule s _ | .dropScheduler s =>
    ∃ scheduler program, w.schedulers[s]? = some scheduler ∧ scheduler.job = .script program
  | _ => True

theorem acts_of_map {α : Type} {x : Option α} {f : α → Answer × World} {answer : Answer}
    (each : ∀ r, x = some r → Acts w (f r).2) (operated : x.map f = some (answer, w')) :
    Acts w w' := by
  obtain ⟨r, made, same⟩ := Option.map_eq_some_iff.mp operated
  have acts := each r made
  rwa [same] at acts

theorem operate_acts (h : Reachable w) {operation : Operation} (suits : w.Suits operation)
    {answer : Answer} (operated : w.operate operation = some (answer, w')) : Acts w w' := by
  unfold operate at operated
  cases operation with
  | openCache config issuer =>
    dsimp only at operated
    split at operated <;> cases operated <;> exact openCache_acts ‹_›
  | read c blocking => exact acts_of_map (fun _ got => read_acts h suits got) operated
  | visit c blocking delays =>
    refine acts_of_map (fun _ visited => visit_acts h suits (fun time member => ?_) visited)
      operated
    obtain ⟨delay, -, rfl⟩ := List.mem_map.mp member
    exact Nat.le_add_right _ _
  | forward c headers => exact acts_of_map (fun _ sent => forward_acts h suits sent) operated
  | close c => exact acts_of_map (fun _ closed => close_acts h closed) operated
  | dropCache c => exact acts_of_map (fun _ dropped => dropCache_acts h dropped) operated
  | advance length => exact acts_of_map (fun _ waited => advance_acts h waited) operated
  | openScheduler identity program =>
    dsimp only at operated
    split at operated
    · rename_i p opened found
      cases operated
      obtain ⟨-, pool, hp, kept⟩ := poolFor_ok found
      exact (poolFor_acts found).tail (.silent (.addScheduler hp kept program) rfl)
    · cases operated
      exact poolFor_acts ‹_›
  | start s =>
    cases operated
    obtain ⟨scheduler, program, hs, job⟩ := suits
    exact .single (.silent (.start hs job) (start_timings ..))
  | schedule s delay =>
    cases operated
    obtain ⟨scheduler, program, hs, job⟩ := suits
    exact .single (.schedule hs job delay)
  | shutdown s => exact acts_of_map (fun _ retired => retire_acts h retired) operated
  | dropScheduler s =>
    obtain ⟨scheduler, program, hs, job⟩ := suits
    exact acts_of_map (fun _ dropped => dropScheduler_acts h hs job dropped) operated
  | takeHandle identity =>
    dsimp only at operated
    split at operated
    · rename_i p opened found
      obtain ⟨-, pool, hp, kept⟩ := poolFor_ok found
      have taken : Acts w (opened.keepHandle p) :=
        (poolFor_acts found).tail (.silent (.keepHandle hp kept) rfl)
      refine taken.trans (acts_of_map (fun _ asked => ?_) operated)
      exact inquire_acts (h.later (Acts.later taken)) asked
    · cases operated
      exact poolFor_acts ‹_›
  | dropHandle p => exact acts_of_map (fun _ dropped => dropHandle_acts h dropped) operated
  | occupy p pause =>
    cases operated
    exact .single (.silent (.occupy p pause) rfl)
  | block p count length => exact acts_of_map (fun _ blocked => block_acts h blocked) operated
  | dropRegistry order =>
    exact acts_of_map (fun _ dropped => dropRegistry_acts h order dropped) operated
  | setOutage source =>
    cases operated
    exact .single (.silent (.setOutage source) rfl)

end TokenKeeper.World
