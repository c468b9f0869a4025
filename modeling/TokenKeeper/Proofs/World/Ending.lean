import TokenKeeper.Proofs.World.Awaiting
import TokenKeeper.Proofs.World.Visitors
/-! When waits end. Whoever waits comes to the end of it in time unless more goes on until then than
a wait has patience for. -/
namespace TokenKeeper

def Reader.AnsweredBy (reader : Reader) (maxWait : Span) (deadline : Instant) : Prop :=
  match reader.stage with
  | .coming time => time + maxWait ≤ deadline
  | .waiting _ up => up ≤ deadline
  | .served .. => True

theorem Reader.AnsweredBy.next {reader : Reader} {cache : Cache} {now deadline : Instant}
    (h : reader.AnsweredBy cache.config.maxWait deadline)
    (ahead : ∀ time, reader.stage = .coming time → now ≤ time) :
    (reader.next cache now).AnsweredBy cache.config.maxWait deadline := by
  unfold Reader.AnsweredBy at h
  unfold Reader.next
  cases stage : reader.stage with
  | coming time =>
    rw [stage] at h
    cases cache.current with
    | some issued => trivial
    | none =>
      by_cases hasty : (!reader.blocking && cache.config.maxWait = 0) = true
      · simp only [hasty, if_true]
        trivial
      · simp only [hasty, Bool.false_eq_true, if_false]
        exact (Nat.add_le_add_right (ahead time stage) _).trans h
  | waiting => trivial
  | served =>
    unfold Reader.AnsweredBy
    rw [stage]
    trivial

namespace World
variable {w w' : World} {stop : World → Bool} {limit : Option Instant} {fuel : Nat}
  {deadline : Instant}

inductive PassesIn : Nat → World → World → Prop where
  | refl (w : World) : PassesIn 0 w w
  | head {n w next w'} (pass : Pass w next) (passes : PassesIn n next w') : PassesIn (n + 1) w w'

theorem PassesIn.passes {n : Nat} (passes : PassesIn n w w') : Passes w w' := by
  induction passes with
  | refl => exact .refl
  | head pass _ ih => exact .head pass ih

/-- Either ends by the deadline, or so much has gone on by then that the patience is used up. -/
theorem awaitFrom_ends (h : Reachable w) (due : w.now ≤ deadline)
    (next : ∀ w', Passes w w' → w'.now ≤ deadline → w'.move? = none → stop w' = false →
      ∃ time, (w'.nextTime?.toList ++ limit.toList).min? = some time ∧ time ≤ deadline) :
    (∃ w', awaitFrom stop limit fuel w = some w' ∧ w'.now ≤ deadline) ∨
      ∃ w', PassesIn fuel w w' ∧ w'.now ≤ deadline := by
  induction fuel generalizing w with
  | zero => exact .inr ⟨w, .refl w, due⟩
  | succ fuel ih =>
    have goes {later : World} (pass : Pass w later) (due : later.now ≤ deadline) :
        (∃ w', awaitFrom stop limit fuel later = some w' ∧ w'.now ≤ deadline) ∨
          ∃ w', PassesIn (fuel + 1) w w' ∧ w'.now ≤ deadline := by
      refine (ih (h.later (.single pass.step)) due fun w' passes => ?_).imp_right ?_
      · exact next w' (.head pass passes)
      · exact fun ⟨w', passes, due⟩ => ⟨w', .head pass passes, due⟩
    unfold awaitFrom
    cases moved : w.move? with
    | some later => exact goes (.move moved) ((move_now h.sound moved).trans_le due)
    | none =>
      dsimp only
      split
      · exact .inl ⟨w, rfl, due⟩
      · rename_i on
        rw [Bool.or_eq_true, not_or, Bool.not_eq_true] at on
        obtain ⟨time, first, le⟩ := next w .refl due moved on.1
        obtain ⟨pass, -⟩ := wait_next h moved (fun time bound => by simpa [bound] using on.2) first
        rw [first]
        exact goes pass le

theorem awaitFrom_ends_limit (stop : World → Bool) (fuel : Nat) {t : Instant} (h : Reachable w)
    (due : w.now ≤ t) : (∃ w', awaitFrom stop (some t) fuel w = some w' ∧ w'.now ≤ t) ∨
      ∃ w', PassesIn fuel w w' ∧ w'.now ≤ t :=
  awaitFrom_ends h due fun _ _ _ _ _ => min?_le (List.mem_append_right _ List.mem_cons_self)

section Readers

def AnswersBy (w : World) (deadline : Instant) : Prop :=
  ∀ reader ∈ w.readers, ∀ cache, w.caches[reader.cache]? = some cache →
    reader.AnsweredBy cache.config.maxWait deadline

theorem AnswersBy.attend (answers : w.AnswersBy deadline) (h : Reachable w) {i : Nat}
    {reader : Reader} {cache : Cache} (hi : w.readers[i]? = some reader)
    (hc : w.caches[reader.cache]? = some cache) : (w.attend i).AnswersBy deadline := by
  intro other hr cache' hc'
  rw [attend_caches] at hc'
  rw [attend_readers hi hc] at hr
  rcases List.mem_or_eq_of_mem_set hr with old | rfl
  · exact answers other old cache' hc'
  · rw [Reader.next_cache] at hc'
    obtain rfl := Option.some.inj (hc.symm.trans hc')
    exact (answers reader (List.mem_of_getElem? hi) cache hc).next (h.awaited i reader hi).2

theorem AnswersBy.work (answers : w.AnswersBy deadline) (h : Reachable w) {p : PoolId}
    {pool : Pool} (hp : w.pools[p]? = some pool) : (w.work p).AnswersBy deadline := by
  intro reader hr cache' hc'
  rw [work_readers] at hr
  obtain ⟨i, hi⟩ := List.mem_iff_getElem?.mp hr
  obtain ⟨⟨cache, hc⟩, -⟩ := h.awaited i reader hi
  obtain ⟨later, hl, follows⟩ := (h.sound.work_caches hp).grows _ cache hc
  obtain rfl := Option.some.inj (hl.symm.trans hc')
  rw [follows.config]
  exact answers reader hr cache hc

theorem AnswersBy.pass (answers : w.AnswersBy deadline) (h : Reachable w) (pass : Pass w w') :
    w'.AnswersBy deadline := by
  cases pass with
  | tick => exact answers
  | move moved =>
    rcases move?_cases moved with
      ⟨p, pool, hp, -, rfl⟩ | ⟨-, i, reader, cache, hi, hc, -, rfl⟩
    · exact answers.work h hp
    · exact answers.attend h hi hc

theorem AnswersBy.passes (answers : w.AnswersBy deadline) (h : Reachable w)
    (passes : Passes w w') : w'.AnswersBy deadline := by
  induction passes with
  | refl => exact answers
  | tail before pass ih => exact ih.pass (h.later (Passes.later before)) pass

end Readers
end World
end TokenKeeper
