import TokenKeeper.Proofs.Sharing.Peaceful
import TokenKeeper.Proofs.World.Visitors
/-! What is done to a peaceful world from outside. Opening, closing or dropping a cache, and asking
for its token, changes no chain but its own. -/
namespace TokenKeeper

def Chain.shut (x : Chain) : Chain := { x with scheduler := x.scheduler.letGo }

def Chain.gone (x : Chain) : Chain := { x.shut with cache := { x.cache with dropped := true } }

namespace World
variable {w w' w'' : World} {c : CacheId} {x : Chain}

structure Becomes (w w' : World) (f : CacheId → Chain → Chain) : Prop where
  later : Later w w'
  peaceful : w'.Peaceful
  now : w'.now = w.now
  shows : ∀ c x, w.Shows c x → w'.Shows c (f c x)

theorem Becomes.refl (h : w.Peaceful) : Becomes w w fun _ x => x :=
  ⟨.refl, h, rfl, fun _ _ shows => shows⟩

theorem Becomes.trans {f g : CacheId → Chain → Chain} (h : Becomes w w' f)
    (h' : Becomes w' w'' g) : Becomes w w'' fun c x => g c (f c x) :=
  ⟨h.later.trans h'.later, h'.peaceful, h'.now.trans h.now,
    fun c x shows => h'.shows c _ (h.shows c x shows)⟩

namespace Peaceful

theorem expect (h : w.Peaceful) (hc : c < w.caches.length) (blocking : Bool)
    {times : List Instant} (later : ∀ time ∈ times, w.now ≤ time) :
    Becomes w (w.expect c blocking times) fun _ x => x := by
  have step : Step w (w.expect c blocking times) := .expect blocking hc later
  refine ⟨.single step, ?_, rfl, fun c x shows => shows.stays rfl rfl rfl rfl⟩
  exact h.keep step rfl (.refl .refl _) (.refl .refl _)

theorem arrive (h : w.Peaceful) {i : Nat} {reader : Reader} {time : Instant}
    (hi : w.readers[i]? = some reader) (coming : reader.stage = .coming time)
    (due : time ≤ w.now) : Becomes w (w.attend i) fun _ x => x := by
  have step : Step w (w.attend i) := .arrive hi coming due
  refine ⟨.single step, ?_, attend_now w i, fun c x shows => shows.attended i⟩
  apply h.keep step (attend_pools w i)
  · rw [attend_schedulers]
    exact .refl .refl _
  · rw [attend_caches]
    exact .refl .refl _

theorem note (h : w.Peaceful) {notice : Notice} (kind : notice.isElapsed = false) :
    Becomes w (w.note notice) fun _ x => x := by
  have step : Step w (w.note notice) := .note kind
  refine ⟨.single step, ?_, note_now w _, fun c x shows => shows.noted notice⟩
  apply h.keep step (note_pools w _)
  · rw [note_schedulers]
    exact .refl .refl _
  · rw [note_caches]
    exact .refl .refl _

theorem notes (h : w.Peaceful) {notices : List Notice}
    (kinds : ∀ notice ∈ notices, notice.isElapsed = false) :
    Becomes w (w.notes notices) fun _ x => x := by
  induction notices generalizing w with
  | nil => exact .refl h
  | cons notice rest ih =>
    have noted := h.note (kinds notice List.mem_cons_self)
    exact noted.trans (ih noted.peaceful fun other member => kinds other (.tail _ member))

end Peaceful

theorem release_registered (registered : ∀ pool ∈ w.pools, pool.registered = true) (q : PoolId) :
    w.release q = w := by
  obtain same | ⟨pool, hq, free, -⟩ := w.release_eq q
  · exact same
  · have owned : w.isOwned q = true := by
      apply isOwned_iff.mpr
      refine .inl ⟨pool, hq, ?_⟩
      rw [Pool.isKept, registered pool (List.mem_of_getElem? hq), Bool.true_or]
    rw [free] at owned
    cases owned

theorem callOff_pools (w : World) (s : SchedulerId) (q : PoolId) :
    (w.callOff none s q).pools = w.pools.modify q fun pool =>
      { pool with worker := pool.worker.rouse false (Task.isPendingOf s) } := rfl

namespace Peaceful

theorem shutdown_eq (h : w.Peaceful) {s : SchedulerId} {scheduler : Scheduler}
    (hs : w.schedulers[s]? = some scheduler) {q : PoolId} (on : scheduler.pool = some q) :
    ∃ notice : Notice, notice.isElapsed = false ∧
      (w.shutdown none s).1 = (w.callOff none s q).note notice := by
  obtain ⟨notice, kind, shut⟩ := shutdown_open none hs on
  refine ⟨notice, kind, ?_⟩
  rw [shut]
  apply release_registered
  intro pool member
  rw [note_pools, callOff_pools] at member
  obtain ⟨p, hp⟩ := List.mem_iff_getElem?.mp member
  obtain ⟨before, hb, rfl⟩ := getElem?_modify_cases hp
  have registered := (h.pools before (List.mem_of_getElem? hb)).1
  split <;> exact registered

theorem callOff_live (h : w.Peaceful) (s s' : SchedulerId) (q : PoolId) :
    (w.callOff none s q).live s' = w.live s' := by
  have rouses (pool : Pool) (hp : w.pools[q]? = some pool) :
      (pool.worker.rouse false (Task.isPendingOf s)).tasks = pool.worker.tasks :=
    (pool.worker.rouse_tasks _).eq (h.running hp)
  have same : (w.callOff none s q).live s' =
      (w.onWorker q fun worker => worker.rouse false (Task.isPendingOf s)).live s' :=
    live_congr (callOff_pools w s q) s'
  exact same.trans (live_onWorker (f := fun worker => worker.rouse false _) rouses s')

theorem callOff (h : w.Peaceful) {s : SchedulerId} {scheduler : Scheduler}
    (hs : w.schedulers[s]? = some scheduler) {q : PoolId} (on : scheduler.pool = some q) :
    (w.shutdown none s).1.Peaceful := by
  have step : Step w (w.shutdown none s).1 := .shutdown s
  have reachable := h.reachable.later (.single step)
  obtain ⟨notice, kind, shut⟩ := h.shutdown_eq hs on
  rw [shut] at reachable ⊢
  apply h.modify reachable (p := q)
    (f := fun pool => { pool with worker := pool.worker.rouse false (Task.isPendingOf s) })
  · rw [note_schedulers]
    exact .modify .refl fun _ _ => ⟨rfl, .inr rfl⟩
  · rw [note_caches]
    exact .refl .refl _
  · rw [note_pools, callOff_pools]
  · intro pool hp
    obtain ⟨registered, unheld, gentle⟩ := h.pools pool (List.mem_of_getElem? hp)
    refine ⟨registered, unheld, fun task member => gentle task ?_⟩
    exact (pool.worker.rouse_tasks _).mem member

theorem shutdown (h : w.Peaceful) {cache : Cache} (hc : w.caches[c]? = some cache) :
    Becomes w (w.shutdown none cache.scheduler).1 (fun c' x => if c' = c then x.shut else x) ∧
      SameSize w (w.shutdown none cache.scheduler).1 := by
  have sound := h.reachable.sound
  obtain ⟨scheduler, hs, -⟩ := sound.caches c cache hc
  cases on : scheduler.pool with
  | none =>
    rw [shutdown_shut none hs (Scheduler.isShutDown_iff.mpr on)]
    refine ⟨⟨.refl, h, rfl, fun c' x shows => ?_⟩, rfl, rfl, rfl⟩
    split
    · rename_i same
      subst same
      obtain rfl := Option.some.inj (shows.cache.symm.trans hc)
      obtain rfl := Option.some.inj (shows.scheduler.symm.trans hs)
      have same : x.scheduler.letGo = x.scheduler := by
        unfold Scheduler.letGo
        rw [← on]
      rw [Chain.shut, same]
      exact shows
    · exact shows
  | some q =>
    have peaceful := h.callOff hs on
    have step : Step w (w.shutdown none cache.scheduler).1 := .shutdown cache.scheduler
    obtain ⟨notice, -, shut⟩ := h.shutdown_eq hs on
    rw [shut] at peaceful step ⊢
    have live (s : SchedulerId) :
        ((w.callOff none cache.scheduler q).note notice).live s = w.live s := by
      rw [live_congr (note_pools _ _), h.callOff_live]
    refine ⟨⟨.single step, peaceful, note_now _ _, fun c' x shows => ?_⟩, ?_⟩
    · have there := note_schedulers (w.callOff none cache.scheduler q) notice
      change _ = w.schedulers.modify cache.scheduler (·.letGo) at there
      split
      · rename_i same
        subst same
        obtain rfl := Option.some.inj (shows.cache.symm.trans hc)
        refine ⟨?_, ?_, ?_, ?_⟩
        · rw [note_caches]
          exact shows.cache
        · rw [there]
          exact (List.getElem?_modify_eq ..).trans (congrArg (Option.map _) shows.scheduler)
        · rw [note_now]
          exact shows.now
        · rw [live]
          exact shows.live
      · rename_i other
        refine shows.stays (note_now _ _) ?_ ?_ (live _)
        · rw [there, List.getElem?_modify_ne]
          intro same
          exact other (sound.only_cache hc shows.cache same.symm)
        · rw [note_caches]
          rfl
    · constructor
      · rw [note_pools, callOff_pools, List.length_modify]
      · rw [note_schedulers]
        exact List.length_modify ..
      · rw [note_caches]
        rfl

theorem seeOff_eq (h : w'.Peaceful) (before : World) (p : PoolId) :
    seeOff before p w' = some w' := by
  have stays : (w'.pools[p]?.any fun pool => pool.worker.closing && !pool.identity.background) =
      false := by
    cases hp : w'.pools[p]? with
    | none => rfl
    | some pool => simp [h.running hp]
  unfold seeOff
  exact if_neg (by simp [stays])

theorem close (h : w.Peaceful) (hc : c < w.caches.length) : ∃ w', w.close c = some w' ∧
    Becomes w w' (fun c' x => if c' = c then x.shut else x) ∧ SameSize w w' ∧
      w'.readers = w.readers := by
  have there := List.getElem?_eq_getElem hc
  generalize w.caches[c] = cache at there
  obtain ⟨becomes, size⟩ := h.shutdown there
  have readers := w.shutdown_readers cache.scheduler none
  have retired : w.retire cache.scheduler =
      some ((w.shutdown none cache.scheduler).2, (w.shutdown none cache.scheduler).1) := by
    unfold retire
    dsimp only
    split
    · rfl
    · rw [becomes.peaceful.seeOff_eq]
      rfl
  unfold World.close
  rw [there]
  dsimp only
  rw [retired]
  generalize w.shutdown none cache.scheduler = shut at becomes size readers
  obtain ⟨after, done⟩ := shut
  refine ⟨_, rfl, ?_⟩
  dsimp only
  split
  · refine ⟨becomes.trans (becomes.peaceful.note rfl), ⟨?_, ?_, ?_⟩, ?_⟩
    · rw [note_pools, size.pools]
    · rw [note_schedulers, size.schedulers]
    · rw [note_caches, size.caches]
    · rw [note_readers, readers]
  · exact ⟨becomes, size, readers⟩

theorem dropCache (h : w.Peaceful) (hc : c < w.caches.length) : ∃ w', w.dropCache c = some w' ∧
    Becomes w w' (fun c' x => if c' = c then x.gone else x) ∧ SameSize w w' ∧
      w'.readers = w.readers := by
  obtain ⟨w', closed, becomes, size, readers⟩ := h.close hc
  unfold World.dropCache
  rw [closed]
  obtain ⟨x, shows, -⟩ := h.reachable.sound.shows (List.getElem?_eq_getElem hc)
  have shut := becomes.shows c x shows
  rw [if_pos rfl] at shut
  have step : Step w' (w'.onCache c fun cache => { cache with dropped := true }) :=
    .dropCache shut.cache shut.scheduler rfl
  refine ⟨_, rfl, ⟨.tail becomes.later step, ?_, becomes.now, fun c' x shows => ?_⟩,
    ⟨size.pools, size.schedulers, ?_⟩, readers⟩
  · apply becomes.peaceful.keep step rfl (.refl .refl _)
    exact .modify .refl fun _ _ => ⟨rfl, rfl, rfl⟩
  · have after := becomes.shows c' x shows
    split
    · rename_i same
      subst same
      rw [if_pos rfl] at after
      refine ⟨?_, after.scheduler, after.now, after.live⟩
      exact (List.getElem?_modify_eq ..).trans (congrArg (Option.map _) after.cache)
    · rename_i other
      rw [if_neg other] at after
      exact after.stays rfl rfl (List.getElem?_modify_ne _ _ (Ne.symm other)) rfl
  · rw [← size.caches]
    exact List.length_modify ..

end Peaceful
end World
end TokenKeeper
