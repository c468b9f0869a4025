import TokenKeeper.Proofs.World.Beside
/-! What readers go through. Nobody but a reader itself changes it once it is expected, and nobody
else notes that a wait was in vain. -/
namespace TokenKeeper

namespace Reader

def next (reader : Reader) (cache : Cache) (now : Instant) : Reader :=
  match reader.stage, cache.current with
  | .coming _, some issued => { reader with stage := .served now now (some issued.token) }
  | .coming _, none =>
    if !reader.blocking && cache.config.maxWait = 0 then
      { reader with stage := .served now now none }
    else { reader with stage := .waiting now (now + cache.config.maxWait) }
  | .waiting asked _, current =>
    { reader with stage := .served asked now (current.map (·.token)) }
  | .served .., _ => reader

def inVain? (maxWait : Span) (reader : Reader) : Option (Instant × Notice) :=
  match reader.stage with
  | .served _ time none => some (time, .waitElapsed maxWait)
  | _ => none

theorem next_cache (reader : Reader) (cache : Cache) (now : Instant) :
    (reader.next cache now).cache = reader.cache := by
  unfold next
  split
  · rfl
  · split <;> rfl
  · rfl
  · rfl

theorem next_served {reader : Reader} {cache : Cache} {now asked time : Instant}
    {token : Option AccessToken} (unserved : reader.isServed = false)
    (h : (reader.next cache now).stage = .served asked time token) :
    time = now ∧ token = cache.current.map (·.token) := by
  unfold next at h
  split at h
  · rename_i here
    cases h
    rw [here]
    exact ⟨rfl, rfl⟩
  · rename_i here
    split at h <;> cases h
    rw [here]
    exact ⟨rfl, rfl⟩
  · cases h
    exact ⟨rfl, rfl⟩
  · rename_i stage
    simp [isServed, stage] at unserved

theorem next_came (reader : Reader) (cache : Cache) (now time : Instant) :
    (reader.next cache now).stage ≠ .coming time := by
  intro h
  unfold next at h
  split at h
  · cases h
  · split at h <;> cases h
  · cases h
  · rename_i stage
    rw [h] at stage
    cases stage

theorem isDue_unserved {reader : Reader} {cache : Cache} {now : Instant}
    (due : reader.isDue cache now = true) : reader.isServed = false := by
  unfold isDue at due
  unfold isServed
  split at due
  · rename_i stage
    rw [stage]
  · rename_i stage
    rw [stage]
  · cases due

/-- Readiness and the token open the gate together. -/
theorem sees_iff {reader : Reader} {cache : Cache} (ready : cache.ready = cache.current.isSome) :
    reader.sees cache = cache.current.isSome := by
  unfold sees
  rw [ready, ite_self]

end Reader

namespace World
variable {w w' : World} {i : Nat} {reader : Reader} {cache : Cache}

theorem onReader_readers (hi : w.readers[i]? = some reader) (f : Reader → Reader) :
    (w.onReader i f).readers = w.readers.set i (f reader) := by
  simp [onReader, List.modify_eq_set_getElem?, hi]

theorem attend_readers (hi : w.readers[i]? = some reader)
    (hc : w.caches[reader.cache]? = some cache) :
    (w.attend i).readers = w.readers.set i (reader.next cache w.now) := by
  have on {w' : World} (same : w'.readers = w.readers) (f : Reader → Reader) :
      (w'.onReader i f).readers = w.readers.set i (f reader) := by
    rw [onReader_readers (same ▸ hi), same]
  have noted (notice : Notice) (f : Reader → Reader) :
      ((w.note notice).onReader i f).readers = w.readers.set i (f reader) :=
    on (w.note_readers notice) f
  unfold attend Reader.next
  simp only [hi, hc]
  cases stage : reader.stage with
  | coming time =>
    simp only [arrive]
    cases current : cache.current with
    | some issued =>
      simp only [noteExpired]
      split
      · exact noted _ _
      · exact on rfl _
    | none =>
      simp only
      split
      · simp only [serve, current]
        split
        · exact on rfl _
        · rw [noted, Option.map_none, note_now]
      · exact on rfl _
  | waiting asked deadline =>
    simp only [serve]
    split
    · exact on rfl _
    · rw [noted, note_now]
  | served =>
    obtain ⟨bound, rfl⟩ := List.getElem?_eq_some_iff.mp hi
    exact (List.set_getElem_self bound).symm

theorem note_waitElapsed (maxWait : Span) (shown : w.verbosity.isSome = true) :
    (w.note (.waitElapsed maxWait)).elapsed = (w.now, .waitElapsed maxWait) :: w.elapsed := by
  obtain ⟨least, verbosity⟩ := Option.isSome_iff_exists.mp shown
  have kept : w.verbosity.keeps (.waitElapsed maxWait) = true := by
    rw [verbosity]
    cases least <;> rfl
  unfold note elapsed
  rw [if_pos kept, List.filter_cons_of_pos (by rfl)]

theorem attend_elapsed (hi : w.readers[i]? = some reader)
    (hc : w.caches[reader.cache]? = some cache) (unserved : reader.isServed = false)
    (ready : cache.ready = cache.current.isSome) (shown : w.verbosity.isSome = true) :
    (w.attend i).elapsed =
      ((reader.next cache w.now).inVain? cache.config.maxWait).toList ++ w.elapsed := by
  have served (asked : Instant) : (w.serve i reader cache asked).elapsed =
      (Reader.inVain? cache.config.maxWait
        { reader with stage := .served asked w.now (cache.current.map (·.token)) }).toList ++
          w.elapsed := by
    unfold serve
    rw [Reader.sees_iff ready]
    cases current : cache.current with
    | some issued => rfl
    | none => exact note_waitElapsed _ shown
  unfold attend Reader.next
  simp only [hi, hc]
  cases stage : reader.stage with
  | coming time =>
    simp only [arrive]
    cases current : cache.current with
    | some issued =>
      simp only [noteExpired]
      split
      · exact note_elapsed w rfl
      · rfl
    | none =>
      simp only
      split
      · rw [served, current]
        rfl
      · rfl
  | waiting asked deadline => exact served asked
  | served => simp [Reader.isServed, stage] at unserved

theorem Happens.reader_cases (happens : Happens w w') (h : w.Sound)
    (hi : w'.readers[i]? = some reader) :
    w.readers[i]? = some reader ∨
      (∃ before cache, w.readers[i]? = some before ∧ w.caches[before.cache]? = some cache ∧
        before.isDue cache w.now = true ∧ reader = before.next cache w.now ∧ w' = w.attend i) ∨
      w'.Expects reader := by
  cases happens with
  | time => exact .inl hi
  | work hp => exact .inl ((h.work_apart hp).readers ▸ hi)
  | @attend j before cache hj hc due =>
    rw [attend_readers hj hc, List.getElem?_set] at hi
    split at hi
    · rename_i same
      subst same
      split at hi <;> cases hi
      exact .inr (.inl ⟨before, cache, hj, hc, due, rfl, rfl⟩)
    · exact .inl hi
  | beside beside =>
    obtain ⟨new, readers, expects⟩ := beside.readers
    rw [readers, List.getElem?_append] at hi
    split at hi
    · exact .inl hi
    · exact .inr (.inr (expects reader (List.mem_of_getElem? hi)))

theorem Happens.reader_goes (happens : Happens w w') (h : w.Sound)
    (hi : w.readers[i]? = some reader) :
    w'.readers[i]? = some reader ∨ ∃ cache, w.caches[reader.cache]? = some cache ∧
      reader.isDue cache w.now = true ∧ w' = w.attend i ∧
      ((∃ time, reader.stage = .coming time) ∨
        ∀ pool ∈ w.pools, pool.worker.isReady w.now = false) := by
  cases happens with
  | time => exact .inl hi
  | work hp => exact .inl ((h.work_apart hp).readers.symm ▸ hi)
  | @attend j other cache hj hc due still =>
    by_cases same : j = i
    · subst same
      obtain rfl := Option.some.inj (hi.symm.trans hj)
      exact .inr ⟨cache, hc, due, rfl, still⟩
    · left
      rw [attend_readers hj hc, List.getElem?_set_ne same, hi]
  | beside beside =>
    obtain ⟨new, readers, -⟩ := beside.readers
    left
    rw [readers, List.getElem?_append_left (List.getElem?_eq_some_iff.mp hi).1, hi]

theorem Later.reader_stays (h : w.Sound) (later : Later w w') (hi : w.readers[i]? = some reader)
    (served : reader.isServed = true) : w'.readers[i]? = some reader := by
  induction later with
  | refl => exact hi
  | tail before step ih =>
    have sound := h.later before
    rcases (step.happens sound).reader_goes sound ih with same | ⟨cache, -, due, -⟩
    · exact same
    · rw [Reader.isDue_unserved due] at served
      cases served

/-- Every reader has a cache, and none that is expected has been passed over. -/
def Awaited (w : World) : Prop :=
  ∀ (i : Nat) reader, w.readers[i]? = some reader →
    (∃ cache, w.caches[reader.cache]? = some cache) ∧
      ∀ time, reader.stage = .coming time → w.now ≤ time

theorem Happens.caches (happens : Happens w w') (h : w.Sound) :
    Grows Cache.Follows w.caches w'.caches := by
  cases happens with
  | time => exact .refl .refl _
  | work hp => exact (h.work_caches hp).grows
  | attend =>
    rw [attend_caches]
    exact .refl .refl _
  | beside beside =>
    intro c cache hc
    obtain ⟨cache', hc', keeps⟩ := beside.caches c cache hc
    exact ⟨cache', hc', keeps.toFollows⟩

theorem Awaited.step (awaited : w.Awaited) (h : w.Sound) (step : Step w w') : w'.Awaited := by
  intro i reader hi
  have happens := step.happens h
  have grows := happens.caches h
  rcases happens.reader_cases h hi with
    old | ⟨before, cache, hb, hc, due, rfl, -⟩ | ⟨there, time, coming, later⟩
  · obtain ⟨⟨cache, hc⟩, ahead⟩ := awaited i reader old
    obtain ⟨cache', hc', -⟩ := grows _ cache hc
    refine ⟨⟨cache', hc'⟩, fun time coming => ?_⟩
    have ahead := ahead time coming
    cases happens with
    | time quiet later next =>
      have wakes : reader.wakes = some time := by simp only [Reader.wakes, coming]
      obtain ⟨first, hf, le⟩ := nextTime?_le_reader (List.mem_of_getElem? old) wakes
      exact (next first hf).trans le
    | work hp => rwa [(h.work_apart hp).now]
    | attend => rwa [attend_now]
    | beside beside => rwa [beside.now]
  · rw [Reader.next_cache]
    obtain ⟨cache', hc', -⟩ := grows _ cache hc
    refine ⟨⟨cache', hc'⟩, fun time coming => ?_⟩
    exact absurd coming (Reader.next_came before cache w.now time)
  · refine ⟨there, fun time' coming' => ?_⟩
    rw [coming] at coming'
    cases coming'
    exact later

theorem Reachable.awaited (h : Reachable w) : w.Awaited := by
  obtain ⟨now, verbosity, run⟩ := h
  induction run with
  | refl => simp [Awaited]
  | tail before step ih => exact ih.step (Reachable.sound ⟨now, verbosity, before⟩) step

def inVain? (w : World) (reader : Reader) : Option (Instant × Notice) :=
  w.caches[reader.cache]?.bind fun cache => reader.inVain? cache.config.maxWait

theorem Awaited.inVain?_grows (awaited : w.Awaited)
    (grows : Grows Cache.Follows w.caches w'.caches) :
    w.readers.filterMap w'.inVain? = w.readers.filterMap w.inVain? := by
  apply List.filterMap_congr
  intro reader hr
  obtain ⟨i, hi⟩ := List.mem_iff_getElem?.mp hr
  obtain ⟨⟨cache, hc⟩, -⟩ := awaited i reader hi
  obtain ⟨cache', hc', follows⟩ := grows _ cache hc
  simp only [inVain?, hc, hc', Option.bind_some, follows.config]

theorem filterMap_set_perm {l : List α} {i : Nat} {a b : α} {f : α → Option β}
    (hi : l[i]? = some a) (nothing : f a = none) :
    ((l.set i b).filterMap f).Perm ((f b).toList ++ l.filterMap f) := by
  obtain ⟨bound, rfl⟩ := List.getElem?_eq_some_iff.mp hi
  have was : l.filterMap f = (l.take i).filterMap f ++ (l.drop (i + 1)).filterMap f := by
    nth_rewrite 1 [← List.take_append_drop i l]
    rw [List.drop_eq_getElem_cons bound, List.filterMap_append, List.filterMap_cons_none nothing]
  rw [List.set_eq_take_append_cons_drop, if_pos bound, was, List.filterMap_append]
  cases hb : f b with
  | none => simp [hb]
  | some y =>
    rw [List.filterMap_cons_some hb]
    exact List.perm_middle

theorem Happens.verbosity (happens : Happens w w') (h : w.Sound) : w'.verbosity = w.verbosity := by
  cases happens with
  | time => rfl
  | work hp => exact (h.work_apart hp).verbosity
  | attend => exact attend_verbosity _ _
  | beside beside => exact beside.verbosity

/-- Every wait in vain is noted once, and nothing else is noted like that. -/
theorem Happens.elapsed (happens : Happens w w') (h : w.Sound) (awaited : w.Awaited)
    (ready : ∀ (c : CacheId) cache, w.caches[c]? = some cache →
      cache.ready = cache.current.isSome) (shown : w.verbosity.isSome = true)
    (noted : w.elapsed.Perm (w.readers.filterMap w.inVain?)) :
    w'.elapsed.Perm (w'.readers.filterMap w'.inVain?) := by
  have grows := happens.caches h
  cases happens with
  | time => exact noted
  | work hp =>
    rw [(h.work_apart hp).elapsed, (h.work_apart hp).readers, awaited.inVain?_grows grows]
    exact noted
  | @attend i reader cache hi hc due =>
    have unserved := Reader.isDue_unserved due
    have nothing : w.inVain? reader = none := by
      simp only [inVain?, hc, Option.bind_some, Reader.inVain?]
      split
      · rename_i stage
        simp [Reader.isServed, stage] at unserved
      · rfl
    have now : (w.attend i).inVain? = w.inVain? := by
      funext reader
      rw [inVain?, attend_caches, inVain?]
    have mine : w.inVain? (reader.next cache w.now) =
        (reader.next cache w.now).inVain? cache.config.maxWait := by
      rw [inVain?, Reader.next_cache, hc, Option.bind_some]
    rw [attend_elapsed hi hc unserved (ready _ cache hc) shown, attend_readers hi hc, now, ← mine]
    exact (noted.append_left _).trans (filterMap_set_perm hi nothing).symm
  | beside beside =>
    obtain ⟨new, readers, expects⟩ := beside.readers
    have young : new.filterMap w'.inVain? = [] := by
      apply List.filterMap_eq_nil_iff.mpr
      intro reader hr
      obtain ⟨⟨cache, hc⟩, time, coming, -⟩ := expects reader hr
      simp only [inVain?, hc, Option.bind_some, Reader.inVain?, coming]
    rw [beside.elapsed, readers, List.filterMap_append, young, List.append_nil,
      awaited.inVain?_grows grows]
    exact noted

end World
end TokenKeeper
