import TokenKeeper.Proofs.World.Turn
import TokenKeeper.World.Caches
/-! Workers leave readers alone, and every reader stays with its cache while time passes. -/
namespace TokenKeeper.World
variable (w : World) (p : PoolId) (s : SchedulerId) (actor : Option PoolId)

@[simp] theorem onPool_readers (f : Pool → Pool) : (w.onPool p f).readers = w.readers := rfl
@[simp] theorem onWorker_readers (f : Worker Task → Worker Task) :
    (w.onWorker p f).readers = w.readers := rfl
@[simp] theorem onScheduler_readers (f : Scheduler → Scheduler) :
    (w.onScheduler s f).readers = w.readers := rfl
@[simp] theorem onCache_readers (c : CacheId) (f : Cache → Cache) :
    (w.onCache c f).readers = w.readers := rfl
@[simp] theorem submit_readers (task : Task) : (w.submit actor p task).readers = w.readers := rfl
@[simp] theorem setStage_readers (stage : Worker.Stage Task) :
    (w.setStage p stage).readers = w.readers := rfl
@[simp] theorem goOn_readers (task : Task) : (w.goOn p task).readers = w.readers := rfl
@[simp] theorem yield_readers : (w.yield p).readers = w.readers := rfl
@[simp] theorem endRun_readers (run : RunId) (ending : Ending) :
    (w.endRun run ending).readers = w.readers := rfl
@[simp] theorem leaveRun_readers (run : RunId) : (w.leaveRun p run).readers = w.readers := rfl

@[simp] theorem release_readers : (w.release p).readers = w.readers := by
  unfold release
  repeat' split
  all_goals simp

@[simp] theorem start_readers : (w.start actor s).readers = w.readers := by
  unfold start
  repeat' split
  all_goals simp

@[simp] theorem schedule_readers (delay : Span) :
    (w.schedule actor s delay).readers = w.readers := by
  unfold schedule
  repeat' split
  all_goals simp

@[simp] theorem shutdown_readers : (w.shutdown actor s).1.readers = w.readers := by
  unfold shutdown
  split <;> simp

theorem waitTill_readers (due : Instant) (waiting : Task) {next : World → World}
    (h : ∀ w : World, (next w).readers = w.readers) :
    (w.waitTill p due waiting next).readers = w.readers := by
  unfold waitTill
  repeat' split
  all_goals simp [h]

@[simp] theorem pauseThen_readers (pause : Pause) (still : Pause → Task) (next : Task) :
    (w.pauseThen p pause still next).readers = w.readers := by
  cases pause with
  | rest | till => exact waitTill_readers w p _ _ fun w => by simp
  | hold length =>
    unfold pauseThen
    dsimp only
    split <;> simp

@[simp] theorem enter_readers (submission : Submission) :
    (w.enter p submission).readers = w.readers := by
  unfold enter
  split
  · simp
  · dsimp only
    split
    · simp
    · split <;> simp

@[simp] theorem awaitDelay_readers (submission : Submission) (due : Instant) :
    (w.awaitDelay p submission due).readers = w.readers := by
  unfold awaitDelay
  split
  · simp [abandon]
  · exact waitTill_readers w p due _ fun w => w.enter_readers p submission

@[simp] theorem unlessDropped_readers {f : World → World} (h : (f w).readers = w.readers) :
    (w.unlessDropped s f).readers = w.readers := by
  unfold unlessDropped
  split
  · rfl
  · exact h

@[simp] theorem perform_readers (run : RunId) (action : Action) (rest : List Action) :
    (w.perform p run action rest).readers = w.readers := by
  cases action <;> simp [perform]

@[simp] theorem callIssuer_readers (run : RunId) (c : CacheId) :
    (w.callIssuer p run c).readers = w.readers := by
  unfold callIssuer
  split <;> simp

@[simp] theorem takeUp_readers (c : CacheId) (config : Config) (reply : Reply) :
    (w.takeUp c config reply).1.readers = w.readers := by
  unfold takeUp
  split <;> simp

@[simp] theorem conclude_readers (run : RunId) (c : CacheId) (reply : Reply) :
    (w.conclude p run c reply).readers = w.readers := by
  unfold conclude
  split <;> simp

theorem carryOn_readers (task : Task) : (w.carryOn p task).readers = w.readers := by
  unfold carryOn
  repeat' split
  all_goals simp [endCall]

@[simp] theorem work_readers : (w.work p).readers = w.readers := by
  unfold work
  repeat' split
  · rfl
  · exact carryOn_readers w p _
  · rfl

theorem onReader_stays (i : Nat) {f : Reader → Reader}
    (h : ∀ reader, (f reader).cache = reader.cache) :
    (w.onReader i f).readers.map (·.cache) = w.readers.map (·.cache) := by
  apply List.ext_getElem?
  intro j
  simp only [onReader, List.getElem?_map, List.getElem?_modify]
  cases w.readers[j]? <;> simp
  split <;> simp [h]

theorem attend_stays (i : Nat) :
    (w.attend i).readers.map (·.cache) = w.readers.map (·.cache) := by
  have serves (reader : Reader) (cache : Cache) (asked : Instant) :
      (w.serve i reader cache asked).readers.map (·.cache) = w.readers.map (·.cache) := by
    unfold serve
    dsimp only
    rw [onReader_stays]
    · split <;> simp
    · exact fun _ => rfl
  have arrives (reader : Reader) (cache : Cache) :
      (w.arrive i reader cache).readers.map (·.cache) = w.readers.map (·.cache) := by
    unfold arrive
    split
    · rw [onReader_stays]
      · unfold noteExpired
        split <;> simp
      · exact fun _ => rfl
    · split
      · exact serves ..
      · exact onReader_stays _ _ fun _ => rfl
  unfold attend
  repeat' split
  · rfl
  · rfl
  · exact arrives ..
  · exact serves ..
  · rfl

theorem move?_stays {w next : World} (moved : w.move? = some next) :
    next.readers.map (·.cache) = w.readers.map (·.cache) := by
  unfold move? at moved
  split at moved
  · cases moved
    rw [work_readers]
  · obtain ⟨i, -, rfl⟩ := Option.map_eq_some_iff.mp moved
    exact attend_stays w i

theorem awaitFrom_stays {w w' : World} {stop : World → Bool} {limit : Option Instant} {fuel : Nat}
    (waited : awaitFrom stop limit fuel w = some w') :
    w'.readers.map (·.cache) = w.readers.map (·.cache) := by
  induction fuel generalizing w with
  | zero => cases waited
  | succ fuel ih =>
    unfold awaitFrom at waited
    split at waited
    · rename_i next moved
      rw [ih waited, move?_stays moved]
    · split at waited
      · cases waited
        rfl
      · split at waited
        · cases waited
        · have same := ih waited
          exact same

end TokenKeeper.World
