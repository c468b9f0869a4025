import TokenKeeper.Proofs.World.Turn
import TokenKeeper.World.Caches
/-! Which notices tell of a length of time, and who gives them. Schedulers tell of delays, runs that
load tokens of the next load, and readers of a wait that was in vain; nobody else tells of any. -/
namespace TokenKeeper

def Notice.length? : Notice → Option (String × Span)
  | scheduled _ delay | loadFailed _ delay | nextLoad delay => some ("delay_ms", delay)
  | waitElapsed maxWait => some ("max_wait_ms", maxWait)
  | _ => none

theorem Notice.lookup_length {notice : Notice} {name : String} {length : Span}
    (h : notice.length? = some (name, length)) :
    notice.fields.lookup name = some (.number (length.millis % UInt64.size)) := by
  cases notice <;> cases h <;> rfl

theorem Span.millis_fits_iff (length : Span) :
    length.millis % UInt64.size = length.millis ↔ length < Span.ofMillis UInt64.size := by
  unfold Span.millis Span.ofMillis
  rw [Nat.mod_eq_iff_lt (by decide), Nat.div_lt_iff_lt_mul (by decide)]

namespace World

def timings (w : World) : List (Instant × Notice) := w.log.filter (·.2.length?.isSome)

section Silent
variable (w : World) (p : PoolId) (s : SchedulerId) (actor : Option PoolId)

theorem note_timings (notice : Notice) : (w.note notice).timings =
    (if w.verbosity.keeps notice && notice.length?.isSome then [(w.now, notice)] else []) ++
      w.timings := by
  unfold note timings
  cases kept : w.verbosity.keeps notice <;> cases tells : notice.length?.isSome <;>
    simp [tells]

theorem note_silent {notice : Notice} (silent : notice.length? = none) :
    (w.note notice).timings = w.timings := by
  rw [note_timings, silent, Option.isSome_none, Bool.and_false, if_neg Bool.false_ne_true,
    List.nil_append]

theorem release_timings : (w.release p).timings = w.timings := by
  unfold release
  split
  · rfl
  · split
    · rfl
    · exact note_silent _ rfl

theorem start_timings : (w.start actor s).timings = w.timings := by
  unfold start
  split
  · rfl
  · split
    · exact note_silent _ rfl
    · split <;> exact note_silent _ rfl

theorem shutdown_timings : (w.shutdown actor s).1.timings = w.timings := by
  unfold shutdown
  split
  · rfl
  · rw [release_timings]
    exact note_silent _ rfl

theorem waitTill_timings (due : Instant) (waiting : Task) {next : World → World}
    (silent : ∀ w : World, (next w).timings = w.timings) :
    (w.waitTill p due waiting next).timings = w.timings := by
  unfold waitTill
  repeat' split
  all_goals first | rfl | exact silent _

theorem pauseThen_timings (pause : Pause) (still : Pause → Task) (next : Task) :
    (w.pauseThen p pause still next).timings = w.timings := by
  cases pause with
  | rest | till => exact waitTill_timings _ _ _ _ fun _ => rfl
  | hold length =>
    unfold pauseThen
    dsimp only
    split <;> rfl

theorem enter_timings (submission : Submission) :
    (w.enter p submission).timings = w.timings := by
  unfold enter
  split
  · rfl
  · dsimp only
    split
    · rfl
    · split <;> exact note_silent _ rfl

theorem awaitDelay_timings (submission : Submission) (due : Instant) :
    (w.awaitDelay p submission due).timings = w.timings := by
  unfold awaitDelay
  split
  · exact note_silent _ rfl
  · exact waitTill_timings _ _ _ _ fun w => w.enter_timings p submission

theorem callIssuer_timings (run : RunId) (c : CacheId) :
    (w.callIssuer p run c).timings = w.timings := by
  unfold callIssuer
  split <;> rfl

theorem poolFor_timings (identity : Identity) :
    (w.poolFor identity).2.timings = w.timings := by
  unfold poolFor
  dsimp only
  split
  · rfl
  · split
    · rfl
    · split
      · rfl
      · split
        · rfl
        · exact note_silent _ rfl

end Silent

end World
end TokenKeeper
