import TokenKeeper.Proofs.Operations
/-! What a wait comes to does not depend on how many steps it is given, as long as they are enough.
A wait without a limit stops at the first quiet moment at which it may. -/
namespace TokenKeeper.World
variable {w w' : World} {stop : World → Bool} {limit : Option Instant} {fuel fuel' : Nat}
  {t : Instant}

theorem move?_eq_none (workers : ∀ pool ∈ w.pools, pool.worker.isReady w.now = false)
    (readers : ∀ reader ∈ w.readers, w.isDue reader = false) : w.move? = none := by
  unfold move?
  rw [List.findIdx?_eq_none_iff.mpr workers]
  dsimp only
  rw [List.findIdx?_eq_none_iff.mpr readers]
  rfl

theorem quiet_until (quiet : w.move? = none)
    (next : ∀ time, w.nextTime? = some time → t < time) : { w with now := t }.move? = none := by
  obtain ⟨workers, readers⟩ := move?_none quiet
  apply move?_eq_none
  · intro pool hp
    have still := workers pool hp
    unfold Worker.isReady at still ⊢
    cases stage : pool.worker.stage with
    | free | busy | between =>
      rw [stage] at still
      cases still
    | gone => rfl
    | idle =>
      rw [stage] at still
      simp only [Bool.or_eq_false_iff, List.any_eq_false, decide_eq_true_eq] at still ⊢
      refine ⟨still.1, fun r hr => Nat.not_le.mpr ?_⟩
      -- The first of the resting tasks is among the times at which something goes on.
      obtain ⟨first, hf, le⟩ := min?_le (List.mem_map_of_mem (f := (·.1)) hr)
      have wakes : pool.worker.wakes = some first := by simp [Worker.wakes, stage, hf]
      obtain ⟨time, ht, le'⟩ := nextTime?_le_worker hp wakes
      exact (next time ht).trans_le (le'.trans le)
    | held task free =>
      obtain ⟨time, ht, le⟩ := nextTime?_le_worker hp (t := free) (by simp [Worker.wakes, stage])
      simpa using (next time ht).trans_le le
  · intro reader hr
    have still := readers reader hr
    unfold isDue at still ⊢
    cases hc : w.caches[reader.cache]? with
    | none => rfl
    | some cache =>
      rw [hc] at still
      dsimp only [Option.any_some] at still ⊢
      unfold Reader.isDue at still ⊢
      cases stage : reader.stage with
      | coming time =>
        obtain ⟨first, ht, le⟩ := nextTime?_le_reader hr (t := time) (by simp [Reader.wakes, stage])
        simpa using (next first ht).trans_le le
      | waiting asked deadline =>
        obtain ⟨first, ht, le⟩ :=
          nextTime?_le_reader hr (t := deadline) (by simp [Reader.wakes, stage])
        rw [stage, Bool.or_eq_false_iff] at still
        simpa [still.2] using (next first ht).trans_le le
      | served => rfl

theorem move_now (h : w.Sound) (moved : w.move? = some w') : w'.now = w.now := by
  obtain ⟨p, pool, hp, -, rfl⟩ | ⟨-, i, -, -, -, -, -, rfl⟩ := move?_cases moved
  · exact (h.work_apart hp).now
  · exact attend_now w i

theorem awaitFrom_mono (le : fuel ≤ fuel') (waited : awaitFrom stop limit fuel w = some w') :
    awaitFrom stop limit fuel' w = some w' := by
  induction fuel generalizing fuel' w with
  | zero => cases waited
  | succ fuel ih =>
    cases fuel' with
    | zero => cases le
    | succ fuel' =>
      have le := Nat.le_of_succ_le_succ le
      unfold awaitFrom at waited ⊢
      cases moved : w.move? with
      | some next =>
        rw [moved] at waited
        exact ih le waited
      | none =>
        rw [moved] at waited
        dsimp only at waited ⊢
        split at waited
        · rename_i stops
          rw [if_pos stops]
          exact waited
        · rename_i goes_on
          rw [if_neg goes_on]
          cases first : (w.nextTime?.toList ++ limit.toList).min? with
          | none =>
            rw [first] at waited
            cases waited
          | some t =>
            rw [first] at waited
            exact ih le waited

theorem awaitFrom_unique {w'' : World} (waited : awaitFrom stop limit fuel w = some w')
    (waited' : awaitFrom stop limit fuel' w = some w'') : w' = w'' := by
  have one := awaitFrom_mono (le_max_left fuel fuel') waited
  have other := awaitFrom_mono (le_max_right fuel fuel') waited'
  exact Option.some.inj (one.symm.trans other)

theorem awaitFrom_stops (waited : awaitFrom stop none fuel w = some w') : stop w' = true := by
  induction fuel generalizing w with
  | zero => cases waited
  | succ fuel ih =>
    unfold awaitFrom at waited
    split at waited
    · exact ih waited
    · split at waited
      · rename_i stops
        cases waited
        simpa using stops
      · split at waited
        · cases waited
        · exact ih waited

theorem awaitFrom_reaches (h : Reachable w) (ahead : w.now ≤ t)
    (waited : awaitFrom (fun _ => false) (some t) fuel w = some w') : w'.now = t := by
  induction fuel generalizing w with
  | zero => cases waited
  | succ fuel ih =>
    unfold awaitFrom at waited
    split at waited
    · rename_i next moved
      apply ih (h.later (.single (.move moved))) _ waited
      exact (move_now h.sound moved).trans_le ahead
    · rename_i quiet
      split at waited
      · rename_i there
        cases waited
        exact le_antisymm ahead (by simpa using there)
      · split at waited
        · cases waited
        · rename_i before _ time first
          have later : w.now < t := by simpa using before
          obtain ⟨pass, -, le⟩ := wait_next h quiet (fun _ bound => Option.some.inj bound ▸ later)
            first
          exact ih (h.later (.single pass.step)) (le t rfl) waited

/-- A wait may not stop at any moment before it does. -/
theorem awaitFrom_interior (h : Reachable w) (waited : awaitFrom stop limit fuel w = some w')
    (from_here : w.now ≤ t) (before : t < w'.now) :
    ∃ middle, Passes w middle ∧ middle.move? = none ∧ middle.now ≤ t ∧
      (∀ time, middle.nextTime? = some time → t < time) ∧ stop middle = false := by
  induction fuel generalizing w with
  | zero => cases waited
  | succ fuel ih =>
    unfold awaitFrom at waited
    split at waited
    · rename_i next moved
      have pass : Pass w next := .move moved
      obtain ⟨middle, passes, rest⟩ := ih (h.later (.single pass.step)) waited
        ((move_now h.sound moved).trans_le from_here)
      exact ⟨middle, .head pass passes, rest⟩
    · rename_i quiet
      split at waited
      · cases waited
        exact absurd from_here before.not_ge
      · rename_i goes_on
        rw [Bool.or_eq_true, not_or, Bool.not_eq_true] at goes_on
        split at waited
        · cases waited
        · rename_i time first
          obtain ⟨pass, -⟩ := wait_next h quiet (fun time bound => by simpa [bound] using goes_on.2)
            first
          by_cases le : time ≤ t
          · obtain ⟨middle, passes, rest⟩ := ih (h.later (.single pass.step)) waited le
            exact ⟨middle, .head pass passes, rest⟩
          · refine ⟨w, .refl, quiet, from_here, fun other next => ?_, goes_on.1⟩
            have least := (List.min?_eq_some_iff.mp first).2 other
              (List.mem_append_left _ (Option.mem_toList.mpr next))
            exact (Nat.not_le.mp le).trans_le least

/-- A wait with a limit at which it might stop, and not before, needs no limit. -/
theorem awaitFrom_unlimited (h : Reachable w) {fuel : Nat}
    (waited : awaitFrom (fun _ => false) (some t) fuel w = some w')
    (still : ∀ (w : World) (now : Instant), stop { w with now := now } = stop w)
    (goes_on : ∀ middle, Passes w middle → middle.move? = none → middle.now < t →
      stop middle = false) (stops : stop w' = true) :
    awaitFrom stop none fuel w = some w' := by
  induction fuel generalizing w with
  | zero => cases waited
  | succ fuel ih =>
    unfold awaitFrom at waited ⊢
    cases moved : w.move? with
    | some next =>
      rw [moved] at waited
      have pass : Pass w next := .move moved
      exact ih (h.later (.single pass.step)) waited
        fun middle passes => goes_on middle (.head pass passes)
    | none =>
      rw [moved] at waited
      dsimp only at waited ⊢
      split at waited
      · cases waited
        simp [stops]
      · rename_i before
        have ahead : w.now < t := by simpa using before
        have on := goes_on w .refl moved ahead
        rw [on]
        simp only [Option.any_none, Bool.or_self, Bool.false_eq_true, if_false,
          Option.toList_none, List.append_nil]
        cases first : (w.nextTime?.toList ++ (some t).toList).min? with
        | none =>
          rw [first] at waited
          cases waited
        | some time =>
          rw [first] at waited
          dsimp only at waited
          obtain ⟨pass, -, le⟩ := wait_next h moved (fun _ bound => Option.some.inj bound ▸ ahead)
            first
          by_cases due : w.nextTime? = some time
          · rw [due]
            exact ih (h.later (.single pass.step)) waited
              fun middle passes => goes_on middle (.head pass passes)
          · -- Nothing goes on by itself before the limit, so that the world is the same there.
            obtain ⟨member, least⟩ := List.min?_eq_some_iff.mp first
            have there : time = t := by
              simpa [due] using member
            subst there
            have quiet : { w with now := time }.move? = none := by
              apply quiet_until moved
              intro other next
              apply lt_of_le_of_ne
              · exact least other (List.mem_append_left _ (Option.mem_toList.mpr next))
              · rintro rfl
                exact due next
            cases fuel with
            | zero => cases waited
            | succ fuel =>
              unfold awaitFrom at waited
              rw [quiet] at waited
              simp only [Option.any_some, le_refl, decide_true, Bool.or_true, if_true] at waited
              cases waited
              rw [still, on] at stops
              cases stops

end TokenKeeper.World
