import TokenKeeper.Proofs.Secrecy.Work
import TokenKeeper.World.Await
/-! Readers come and go, and the clock goes on, at the same times whatever the texts of the tokens
are. -/
namespace TokenKeeper
variable (d : CacheId → Disguise)

namespace Reader
variable (reader : Reader)

@[simp] theorem disguise_cache : (reader.disguise d).cache = reader.cache := rfl
@[simp] theorem disguise_blocking : (reader.disguise d).blocking = reader.blocking := rfl

@[simp] theorem disguise_isServed : (reader.disguise d).isServed = reader.isServed := by
  unfold isServed disguise
  cases reader.stage <;> rfl

@[simp] theorem disguise_wakes : (reader.disguise d).wakes = reader.wakes := by
  unfold wakes disguise
  cases reader.stage <;> rfl

@[simp] theorem disguise_sees (cache : Cache) (e : Disguise) :
    (reader.disguise d).sees (cache.disguise e) = reader.sees cache := by
  simp [sees, Cache.disguise]

@[simp] theorem disguise_isDue (cache : Cache) (e : Disguise) (now : Instant) :
    (reader.disguise d).isDue (cache.disguise e) now = reader.isDue cache now := by
  unfold isDue
  rw [disguise_sees]
  unfold disguise
  cases reader.stage <;> rfl

end Reader

namespace World
variable (w : World)

section Reading
variable {i : Nat} {reader : Reader}

theorem disguise_onReader (hi : w.readers[i]? = some reader) {f g : Reader → Reader}
    (h : (f reader).disguise d = g (reader.disguise d)) :
    (w.onReader i f).disguise d = (w.disguise d).onReader i g := by
  simp [onReader, disguise, List.modify_eq_set_getElem?, hi, h, List.map_set]

theorem disguise_noteExpired (issued : Issued) (e : Disguise) :
    (w.disguise d).noteExpired (reader.disguise d) (issued.disguise e) =
      (w.noteExpired reader issued).disguise d := by
  unfold noteExpired
  rw [apply_ite (disguise d), disguise_note]
  rfl

theorem disguise_serve (hi : w.readers[i]? = some reader) (cache : Cache) (asked : Instant) :
    (w.serve i reader cache asked).disguise d =
      (w.disguise d).serve i (reader.disguise d) (cache.disguise (d reader.cache)) asked := by
  have answer : (cache.disguise (d reader.cache)).current.map (·.token) =
      (cache.current.map (·.token)).map (AccessToken.disguise (d reader.cache)) := by
    simp [Cache.disguise, Function.comp_def, Issued.disguise]
  unfold serve
  rw [Reader.disguise_sees, answer]
  cases sees : reader.sees cache with
  | true =>
    apply disguise_onReader d w hi
    rfl
  | false =>
    have noted := disguise_note d w (.waitElapsed cache.config.maxWait)
    simp only [Bool.false_eq_true, if_false]
    rw [disguise_onReader d _ ((congrArg (·[i]?) (w.note_readers _)).trans hi), noted]
    · rfl
    · simp [Reader.disguise, Reader.Stage.disguise]

theorem disguise_arrive (hi : w.readers[i]? = some reader) (cache : Cache) :
    (w.arrive i reader cache).disguise d =
      (w.disguise d).arrive i (reader.disguise d) (cache.disguise (d reader.cache)) := by
  unfold arrive
  cases current : cache.current with
  | some issued =>
    have same : (w.noteExpired reader issued).readers[i]? = some reader := by
      unfold noteExpired
      split
      · rw [note_readers, hi]
      · exact hi
    simp only [Cache.disguise, current, Option.map_some]
    rw [disguise_noteExpired, disguise_onReader d _ same]
    rfl
  | none =>
    have waits : (w.onReader i fun r =>
          { r with stage := .waiting w.now (w.now + cache.config.maxWait) }).disguise d =
        (w.disguise d).onReader i fun r =>
          { r with stage := .waiting w.now (w.now + cache.config.maxWait) } := by
      apply disguise_onReader d w hi
      rfl
    have serves := disguise_serve d w hi cache w.now
    by_cases hurries : (!reader.blocking && cache.config.maxWait = 0) = true
    · simpa [Cache.disguise, current, hurries] using serves
    · simpa [Cache.disguise, current, hurries] using waits

theorem getElem?_disguise_readers (i : Nat) :
    (w.disguise d).readers[i]? = w.readers[i]?.map (Reader.disguise d) := by simp

@[simp] theorem disguise_attend (i : Nat) :
    (w.attend i).disguise d = (w.disguise d).attend i := by
  unfold attend
  rw [getElem?_disguise_readers]
  cases hi : w.readers[i]? with
  | none => rfl
  | some reader =>
    simp only [Option.map_some, Reader.disguise_cache, getElem?_disguise_caches]
    cases w.caches[reader.cache]? with
    | none => rfl
    | some cache =>
      have arrives := disguise_arrive d w hi cache
      have serves := disguise_serve d w hi cache
      cases stage : reader.stage <;>
        simp [Reader.disguise, Reader.Stage.disguise, stage] at arrives serves ⊢
      · exact arrives
      · exact serves _

@[simp] theorem disguise_isDue (reader : Reader) :
    (w.disguise d).isDue (reader.disguise d) = w.isDue reader := by
  unfold isDue
  rw [Reader.disguise_cache, getElem?_disguise_caches]
  cases w.caches[reader.cache]? <;> simp

end Reading

theorem disguise_move? : (w.disguise d).move? = w.move?.map (disguise d) := by
  unfold move?
  have ready : (w.disguise d).pools.findIdx? (fun pool => pool.worker.isReady w.now) =
      w.pools.findIdx? fun pool => pool.worker.isReady w.now := by
    simp [List.findIdx?_map, Function.comp_def, Pool.disguise]
  have due : (w.disguise d).readers.findIdx? (w.disguise d).isDue = w.readers.findIdx? w.isDue := by
    simp [List.findIdx?_map, Function.comp_def]
  rw [disguise_now, ready, due]
  cases w.pools.findIdx? fun pool => pool.worker.isReady w.now with
  | some p => simp [disguise_work]
  | none => cases w.readers.findIdx? w.isDue <;> simp

theorem disguise_nextTime? : (w.disguise d).nextTime? = w.nextTime? := by
  simp [nextTime?, List.filterMap_map, Function.comp_def, Pool.disguise]

section Await
variable {d} {stop : World → Bool} (blind : ∀ w, stop (w.disguise d) = stop w)

include blind in
theorem disguise_awaitFrom (limit : Option Instant) (fuel : Nat) :
    awaitFrom stop limit fuel (w.disguise d) = (awaitFrom stop limit fuel w).map (disguise d) := by
  induction fuel generalizing w with
  | zero => rfl
  | succ fuel ih =>
    unfold awaitFrom
    rw [disguise_move?, disguise_nextTime?, blind, disguise_now]
    cases w.move? with
    | some next => exact ih next
    | none =>
      by_cases ended : (stop w || limit.any fun t => decide (t ≤ w.now)) = true
      · simp [ended]
      · simp only [ended, Option.map_none]
        cases (w.nextTime?.toList ++ limit.toList).min? with
        | none => rfl
        | some t => exact ih { w with now := t }

include blind in
theorem disguise_await (limit : Option Instant) :
    (w.disguise d).await stop limit = (w.await stop limit).map (disguise d) :=
  disguise_awaitFrom w blind limit patience

end Await

theorem disguise_advance (length : Span) :
    (w.disguise d).advance length = (w.advance length).map (disguise d) :=
  disguise_await w (fun _ => rfl) _

theorem disguise_seeOff (before : World) (p : PoolId) :
    seeOff (before.disguise d) p (w.disguise d) = (seeOff before p w).map (disguise d) := by
  have closes (w : World) :
      ((w.disguise d).pools[p]?.any fun pool => pool.worker.closing && !pool.identity.background) =
        w.pools[p]?.any fun pool => pool.worker.closing && !pool.identity.background := by
    rw [getElem?_disguise_pools]
    cases w.pools[p]? <;> rfl
  have gone (w : World) : ((w.disguise d).pools[p]?.all fun pool => pool.worker.isGone) =
      w.pools[p]?.all fun pool => pool.worker.isGone := by
    rw [getElem?_disguise_pools]
    cases w.pools[p]? <;> simp [Pool.disguise]
  unfold seeOff
  simp only [closes, disguise_now]
  split
  · exact disguise_await w gone _
  · rfl

end World
end TokenKeeper
