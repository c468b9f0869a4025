import TokenKeeper.Proofs.World.Beside
/-! Which pool the registry gives out. It goes by the names of the threads, and these do not say
everything: a background pool and a foreground pool can have the same. -/
namespace TokenKeeper

/-- A background pool `i` names its threads as a foreground pool `j` does that is called after
them. -/
def Identity.Shadows (i j : Identity) : Prop :=
  i.background = true ∧ j.background = false ∧ j.name = i.name ++ "-daemon"

def Identity.Alike (i j : Identity) : Prop := i = j ∨ i.Shadows j ∨ j.Shadows i

theorem Identity.threads_eq_iff {i j : Identity} : i.threads = j.threads ↔ i.Alike j := by
  obtain ⟨name, background⟩ := i
  obtain ⟨name', background'⟩ := j
  unfold Alike Shadows threads
  cases background <;> cases background' <;>
    simp [String.append_left_inj, eq_comm]

/-- The pool later on. It is never registered again, and never opens again. -/
structure Pool.Follows (before after : Pool) : Prop where
  identity : after.identity = before.identity
  registered : after.registered = true → before.registered = true
  closing : before.worker.closing = true → after.worker.closing = true

namespace Pool.Follows

theorem refl (pool : Pool) : pool.Follows pool := ⟨rfl, id, id⟩

theorem trans {first second third : Pool} (h : first.Follows second) (h' : second.Follows third) :
    first.Follows third :=
  ⟨h'.identity.trans h.identity, h.registered ∘ h'.registered, h'.closing ∘ h.closing⟩

theorem threads {before after : Pool} (h : before.Follows after) :
    after.threads = before.threads := congrArg Identity.threads h.identity

end Pool.Follows

namespace World
variable {w w' w₁ : World}

abbrev PoolsFollow (w w' : World) : Prop := Grows Pool.Follows w.pools w'.pools

namespace PoolsFollow

theorem same (pools : w'.pools = w.pools) : PoolsFollow w w' := by
  unfold PoolsFollow
  rw [pools]
  exact Grows.refl .refl _

theorem trans {first second third : World} (h : PoolsFollow first second)
    (h' : PoolsFollow second third) : PoolsFollow first third :=
  Grows.trans (R := Pool.Follows) (fun _ _ _ h h' => h.trans h') h h'

theorem onPool (w : World) (p : PoolId) {f : Pool → Pool}
    (each : ∀ pool, w.pools[p]? = some pool → pool.Follows (f pool)) :
    PoolsFollow w (w.onPool p f) := (Pointwise.modify .refl each).grows

theorem note (w : World) (notice : Notice) : PoolsFollow w (w.note notice) :=
  same (w.note_pools _)

theorem release (w : World) (p : PoolId) : PoolsFollow w (w.release p) := by
  obtain h | ⟨_, -, -, closed⟩ := w.release_eq p
  · rw [h]
    exact same rfl
  · rw [closed]
    exact (note w _).trans (onPool _ p fun _ _ => ⟨rfl, id, fun _ => rfl⟩)

theorem submit (w : World) (p : PoolId) (task : Task) : PoolsFollow w (w.submit none p task) := by
  refine onPool w p fun pool _ => ⟨rfl, id, fun closing => ?_⟩
  obtain ⟨inbox, eq⟩ := pool.worker.submitAll_eq [task]
  simp only [reduceCtorEq, if_false, Worker.submit, eq]
  exact closing

theorem asked {s : SchedulerId} (asks : Asks w w' s) : PoolsFollow w w' := by
  obtain h | ⟨_, q, task, f, -, -, -, -, -, notice, -, rfl⟩ := asks
  · obtain rfl | ⟨notice, -, rfl⟩ := h
    · exact same rfl
    · exact note w notice
  · have put : PoolsFollow w ((w.submit none q task).onScheduler s f) := submit w q task
    exact put.trans (note _ notice)

theorem shutdown (w : World) (s : SchedulerId) : PoolsFollow w (w.shutdown none s).1 := by
  rcases w.shutdown_cases none s with still | ⟨_, q, -, -, notice, -, shut⟩
  · rw [still]
    exact same rfl
  · rw [shut]
    have called : PoolsFollow w (w.callOff none s q) :=
      onPool (w.onScheduler s (·.letGo)) q fun _ _ => ⟨rfl, id, id⟩
    exact (called.trans (note _ notice)).trans (release _ q)

theorem work (h : w.Sound) {p : PoolId} {pool : Pool} (hp : w.pools[p]? = some pool) :
    PoolsFollow w (w.work p) := by
  rcases h.work_cases hp with ⟨task, -, -, added, turned, -⟩ | own
  · obtain ⟨f, pools, carries⟩ := turned.pools
    have kept : PoolsFollow w (w.onPool p f) := onPool w p fun pool hp =>
      have ⟨carries, _⟩ := carries pool hp
      ⟨carries.identity, carries.registered ▸ id, carries.closing⟩
    exact kept.trans (same pools)
  · rw [own]
    refine onPool w p fun pool hp => ⟨rfl, id, fun closing => ?_⟩
    exact (Worker.advance_sound (h.workers pool (List.mem_of_getElem? hp))).1.closing.trans closing

theorem openPool (w : World) (identity : Identity) : PoolsFollow w
    { w with pools := w.pools ++ [{ identity := identity, worker := .fresh w.now }] } :=
  .append .refl _ _

theorem poolFor {identity : Identity} {p : PoolId} (h : w.poolFor identity = (.ok p, w')) :
    PoolsFollow w w' := by
  obtain ⟨rfl | ⟨notice, -, rfl⟩, -⟩ := poolFor_ok h
  · exact same rfl
  · exact (openPool w identity).trans (note _ notice)

end PoolsFollow

theorem Step.poolsFollow (h : w.Sound) (step : Step w w') : PoolsFollow w w' := by
  cases step with
  | move moved =>
    obtain ⟨p, pool, hp, -, rfl⟩ | ⟨-, i, -, -, -, -, -, rfl⟩ := move?_cases moved
    · exact .work h hp
    · exact .same (w.attend_pools i)
  | tick | expect | setOutage | addScheduler | dropScheduler | dropCache => exact .same rfl
  | arrive => exact .same (w.attend_pools _)
  | note => exact .note w _
  | openPool identity => exact .openPool w identity
  | keepHandle | staff => exact .onPool w _ fun _ _ => ⟨rfl, id, id⟩
  | giveHandle p =>
    refine PoolsFollow.trans (.onPool w p fun _ _ => ?_) (.release _ p)
    exact ⟨rfl, id, id⟩
  | unregister p =>
    refine PoolsFollow.trans (.onPool w p fun _ _ => ?_) (.release _ p)
    exact ⟨rfl, nofun, id⟩
  | inquire p | occupy p => exact .submit w p _
  | start => exact .asked (start_asks w _)
  | schedule => exact .asked (schedule_asks w _ _)
  | shutdown s => exact .shutdown w s
  | @openCache config issuer _ _ opens =>
    obtain ⟨p, opened, had, -, rfl⟩ := openCache_ok opens
    have added : PoolsFollow opened (opened.withCache p config issuer) := .same rfl
    exact ((PoolsFollow.poolFor had).trans added).trans (.asked (start_asks _ _))

theorem Sound.poolsFollow (h : w.Sound) (later : Later w w') : PoolsFollow w w' := by
  induction later with
  | refl => exact .same rfl
  | tail before step ih => exact ih.trans (step.poolsFollow (h.later before))

theorem poolFor_first {identity : Identity} {p : PoolId} (h : w.poolFor identity = (.ok p, w')) :
    ∃ pool, w'.pools[p]? = some pool ∧ pool.registered = true ∧
      pool.threads = identity.threads ∧
      ∀ q < p, ∀ other, w'.pools[q]? = some other → other.registered = true →
        other.threads ≠ identity.threads := by
  unfold poolFor at h
  dsimp only at h
  split at h
  · cases h
  · split at h
    · rename_i found
      cases h
      obtain ⟨bound, here, before⟩ := List.findIdx?_eq_some_iff_getElem.mp found
      rw [Bool.and_eq_true, beq_iff_eq] at here
      refine ⟨_, List.getElem?_eq_getElem bound, here.1, here.2, ?_⟩
      intro q less other hq kept same
      obtain ⟨bound', rfl⟩ := List.getElem?_eq_some_iff.mp hq
      exact before q less (by simp [kept, same])
    · rename_i none_there
      split at h
      · cases h
      · split at h
        · cases h
        · cases h
          simp only [note_pools]
          refine ⟨_, List.getElem?_concat_length, rfl, rfl, fun q less other hq kept same => ?_⟩
          rw [List.getElem?_append_left less] at hq
          have missed := List.findIdx?_eq_none_iff.mp none_there other (List.mem_of_getElem? hq)
          simp [kept, same] at missed

theorem poolFor_stays {identity : Identity} {q : PoolId} (h : w.poolFor identity = (.ok q, w'))
    {p : PoolId} {pool : Pool} (hp : w.pools[p]? = some pool) : w'.pools[p]? = some pool := by
  obtain ⟨rfl | ⟨notice, -, rfl⟩, -⟩ := poolFor_ok h
  · exact hp
  · rw [note_pools, List.getElem?_append_left (List.getElem?_eq_some_iff.mp hp).1, hp]

/-- One registry gives out the same pool just for identities that are taken for one another, and so
the pool that it gives out for an identity has this one or one that is taken for it. -/
theorem poolFor_same_iff_alike (h : Reachable w) {i : Identity} {p : PoolId}
    (first : w.poolFor i = (.ok p, w₁)) :
    (∃ pool, w₁.pools[p]? = some pool ∧ pool.identity.Alike i) ∧
      ∀ w₂ w₃ j q pool, Later w₁ w₂ → w₂.pools[p]? = some pool → pool.registered = true →
        w₂.poolFor j = (.ok q, w₃) → (q = p ↔ i.Alike j) := by
  obtain ⟨pool₁, hp₁, -, threads, first_one⟩ := poolFor_first first
  refine ⟨⟨pool₁, hp₁, Identity.threads_eq_iff.mp threads⟩,
    fun w₂ w₃ j q pool₂ later hp₂ registered second => ?_⟩
  have since := (h.sound.poolFor first).poolsFollow later
  -- What stands at the place of the first pool, or before it, stood there from the beginning.
  have back {r : PoolId} (le : r ≤ p) {last : Pool} (hr : w₃.pools[r]? = some last) :
      ∃ old, w₁.pools[r]? = some old ∧ old.Follows last := by
    obtain ⟨bound, -⟩ := List.getElem?_eq_some_iff.mp hp₁
    have here := List.getElem?_eq_getElem (le.trans_lt bound)
    obtain ⟨middle, hm, follows⟩ := since r _ here
    obtain rfl := Option.some.inj (hr.symm.trans (poolFor_stays second hm))
    exact ⟨_, here, follows⟩
  obtain ⟨found, hq, kept, threads', first_other⟩ := poolFor_first second
  have hp₃ := poolFor_stays second hp₂
  obtain ⟨old, ho, follows⟩ := back le_rfl hp₃
  obtain rfl := Option.some.inj (hp₁.symm.trans ho)
  have same : pool₂.threads = i.threads := follows.threads.trans threads
  rw [← Identity.threads_eq_iff]
  refine ⟨?_, fun alike => ?_⟩
  · rintro rfl
    obtain rfl := Option.some.inj (hq.symm.trans hp₃)
    exact same.symm.trans threads'
  · rcases lt_trichotomy q p with before | rfl | behind
    · obtain ⟨old, ho, follows⟩ := back before.le hq
      refine absurd ?_ (first_one q before old ho (follows.registered kept))
      exact follows.threads.symm.trans (threads'.trans alike.symm)
    · rfl
    · exact absurd (same.trans alike) (first_other p behind pool₂ hp₃ registered)

theorem poolFor_same_iff_alike_two : ∃ w : World, ({} : World).poolFor ⟨"a", true⟩ = (.ok 0, w) ∧
    ∃ q w', w.poolFor ⟨"b", true⟩ = (.ok q, w') ∧ q ≠ 0 := by
  obtain ⟨w, first⟩ : ∃ w, ({} : World).poolFor ⟨"a", true⟩ = (.ok 0, w) := ⟨_, rfl⟩
  obtain ⟨pool, hp, registered⟩ : ∃ pool, w.pools[0]? = some pool ∧ pool.registered = true := by
    cases first
    exact ⟨_, rfl, rfl⟩
  obtain ⟨q, w', second⟩ : ∃ q w', w.poolFor ⟨"b", true⟩ = (.ok q, w') := by
    cases first
    exact ⟨1, _, rfl⟩
  refine ⟨w, first, q, w', second, fun same => ?_⟩
  have alike := ((poolFor_same_iff_alike reachable_new first).2 w w' ⟨"b", true⟩ q pool .refl hp
    registered second).mp same
  simp [Identity.Alike, Identity.Shadows] at alike

/-- The background pool `a` is given out for the foreground pool that is called after its
threads. -/
theorem poolFor_mistaken : ∃ w, ({} : World).poolFor ⟨"a", true⟩ = (.ok 0, w) ∧
    w.poolFor ⟨"a-daemon", false⟩ = (.ok 0, w) ∧ w.pools.map (·.identity) = [⟨"a", true⟩] :=
  ⟨_, rfl, rfl, rfl⟩

end World
end TokenKeeper
