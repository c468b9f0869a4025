import TokenKeeper.Proofs.Chain.Answered
import TokenKeeper.Proofs.Sharing.Peaceful
import TokenKeeper.Proofs.World.Visitors
/-! Where the readers of a cache are in a quiet world. It follows from the time and from the calls
so far, whatever else there is in the world. -/
namespace TokenKeeper

/-- The cache as it was when all that was to happen at a time had happened. -/
def Cache.asOf (cache : Cache) (t : Instant) : Cache :=
  { cache with current := (cache.publications.filter fun issued => issued.received ≤ t).getLast? }

theorem Cache.promise_congr {cache cache' : Cache} (current : cache'.current = cache.current)
    (config : cache'.config = cache.config) (waits : Bool) (asked : Instant)
    (first? : Option Issued) :
    cache'.promise waits asked first? = cache.promise waits asked first? := by
  unfold Cache.promise
  rw [current, config]

namespace Reader

def awaits (config : Config) (asked now : Instant) (promise : Option AccessToken × Instant) :
    Stage :=
  if promise.2 ≤ now then .served asked promise.2 promise.1
  else .waiting asked (asked + config.maxWait)

/-- Where the reader is at a quiet moment, given the cache at that moment. -/
def foretold (reader : Reader) (cache : Cache) (now : Instant) : Stage :=
  match reader.stage with
  | .coming time =>
    if now < time then .coming time
    else awaits cache.config time now <|
      (cache.asOf time).promise (reader.canWait cache.config.maxWait) time cache.publications.head?
  | .waiting asked _ =>
    awaits cache.config asked now <| { cache with current := none }.promise true asked
      cache.publications.head?
  | .served .. => reader.stage

theorem next_stage (reader : Reader) (cache : Cache) (now : Instant) :
    ∃ stage, reader.next cache now = { reader with stage := stage } := by
  unfold next
  split
  · exact ⟨_, rfl⟩
  · split
    · exact ⟨_, rfl⟩
    · exact ⟨_, rfl⟩
  · exact ⟨_, rfl⟩
  · exact ⟨reader.stage, rfl⟩

def Suits (reader : Reader) (x : Chain) : Prop :=
  ∀ asked deadline, reader.stage = .waiting asked deadline →
    x.cache.current = none ∧ deadline = asked + x.cache.config.maxWait ∧ x.now ≤ deadline

theorem foretold_congr {cache cache' : Cache} (config : cache'.config = cache.config)
    (publications : cache'.publications = cache.publications) (reader : Reader) (now : Instant) :
    reader.foretold cache' now = reader.foretold cache now := by
  unfold foretold awaits Cache.asOf Cache.promise
  rw [publications, config]

end Reader

namespace World
variable {w w' : World} {c : CacheId} {i : Nat} {reader : Reader}

/-- Nobody has been served at a time that is still to come. -/
theorem Reachable.served_past (h : Reachable w) (hi : w.readers[i]? = some reader)
    {asked time : Instant} {token : Option AccessToken}
    (stage : reader.stage = .served asked time token) : time ≤ w.now := by
  obtain ⟨now, verbosity, run⟩ := h
  induction run generalizing reader with
  | refl => simp at hi
  | @tail middle last before step ih =>
    have sound : middle.Sound := Reachable.sound ⟨now, verbosity, before⟩
    have happens := step.happens sound
    have later : middle.now ≤ last.now := by
      rcases happens.now sound with same | ⟨t, rfl, -, le, -⟩
      · exact same.ge
      · exact le
    rcases happens.reader_cases sound hi with
      old | ⟨earlier, cache, -, -, due, rfl, -⟩ | ⟨-, _, coming, -⟩
    · exact (ih old stage).trans later
    · exact (Reader.next_served (Reader.isDue_unserved due) stage).1.trans_le later
    · rw [coming] at stage
      cases stage

theorem Passes.reader_goes (passes : Passes w w') (hi : w.readers[i]? = some reader) :
    w'.readers[i]? = some reader ∨ ∃ middle cache, Passes w middle ∧
      middle.readers[i]? = some reader ∧ middle.caches[reader.cache]? = some cache ∧
      reader.isDue cache middle.now = true ∧
      (∀ pool ∈ middle.pools, pool.worker.isReady middle.now = false) ∧
      Pass middle (middle.attend i) ∧ Passes (middle.attend i) w' := by
  induction passes with
  | refl => exact .inl hi
  | @tail middle last before pass ih =>
    rcases ih with stays | ⟨middle, cache, passes, hm, hc, due, still, goes, after⟩
    · cases pass with
      | tick => exact .inl stays
      | move moved =>
        have goes := Pass.move moved
        obtain ⟨p, pool, hp, -, rfl⟩ | ⟨still, j, other, cache, hj, hc, due, rfl⟩ :=
          move?_cases moved
        · rw [work_readers]
          exact .inl stays
        · by_cases same : j = i
          · subst same
            obtain rfl := Option.some.inj (stays.symm.trans hj)
            exact .inr ⟨middle, cache, before, hj, hc, due, still, goes, .refl⟩
          · rw [attend_readers hj hc, List.getElem?_set_ne same]
            exact .inl stays
    · exact .inr ⟨middle, cache, passes, hm, hc, due, still, goes, after.tail pass⟩

variable {start : Instant} {x x' : Chain}

/-- Who has been promised an answer has got it by the time for which it was promised. -/
theorem Reachable.stage_of_promise (h : Reachable w) (hi : w.readers[i]? = some reader)
    {config : Config} {asked : Instant} {promise : Option AccessToken × Instant}
    (kept : reader.stage = .served asked promise.2 promise.1 ∨
      reader.stage = .waiting asked (asked + config.maxWait) ∧ w.now < promise.2) :
    reader.stage = Reader.awaits config asked w.now promise := by
  unfold Reader.awaits
  obtain served | ⟨waiting, ahead⟩ := kept
  · rw [if_pos (h.served_past hi served), served]
  · rw [if_neg ahead.not_ge, waiting]

theorem Peaceful.foretold_waiting (h : w.Peaceful) (shows : w.Shows reader.cache x)
    (hi : w.readers[i]? = some reader) {asked : Instant}
    (stage : reader.stage = .waiting asked (asked + x.cache.config.maxWait))
    (missing : x.cache.current = none) (ahead : w.now ≤ asked + x.cache.config.maxWait)
    (passes : Passes w w') (quiet : w'.move? = none) (shows' : w'.Shows reader.cache x') :
    ∃ reader', w'.readers[i]? = some reader' ∧
      reader'.stage = reader.foretold x'.cache w'.now := by
  have reachable' := h.reachable.later passes.later
  have follows := (h.shows_passes shows passes).elim fun x'' ⟨shows'', moves⟩ =>
    shows''.unique shows' ▸ Chain.Later.follows (Chain.Moves.later moves)
  have nothing : x.cache.publications = [] := by
    have current := (shows.published h.reachable).current
    rw [missing] at current
    exact List.getLast?_eq_none_iff.mp current.symm
  have fares : Fares w x.cache.scheduler asked (asked + x.cache.config.maxWait)
      x.cache.publications reader.stage := by
    rw [stage, nothing]
    exact .waiting ahead (by simp)
  obtain ⟨cache', reader', hc', hi', same, fares'⟩ :=
    fares.later h.reachable passes.later hi shows.cache
  obtain rfl := Option.some.inj (hc'.symm.trans shows'.cache)
  have kept := fares'.kept missing fun still deadline waiting => by
    have published := shows'.published reachable'
    obtain ⟨unseen, ahead⟩ := waits_of_quiet still hi' (same ▸ hc') published.ready waiting
    rw [published.current, List.getLast?_eq_none_iff] at unseen
    exact ⟨unseen, ahead⟩
  have told : reader'.stage = Reader.awaits x.cache.config asked w'.now
      (x.cache.promise true asked x'.cache.publications.head?) := by
    apply reachable'.stage_of_promise hi'
    exact kept.imp_right fun late => ⟨late.1, late.2.2 quiet⟩
  have unseen : ({ x'.cache with current := none } : Cache).current = x.cache.current :=
    missing.symm
  rw [← Cache.promise_congr unseen follows.config, ← follows.config] at told
  refine ⟨reader', hi', told.trans ?_⟩
  unfold Reader.foretold
  rw [stage]

theorem Peaceful.foretold_coming (h : w.Peaceful) (shows : w.Shows reader.cache x)
    (steady : x.Steady start) (hi : w.readers[i]? = some reader) {time : Instant}
    (stage : reader.stage = .coming time) (passes : Passes w w') (quiet : w'.move? = none)
    (shows' : w'.Shows reader.cache x') :
    ∃ reader', w'.readers[i]? = some reader' ∧
      reader'.stage = reader.foretold x'.cache w'.now := by
  have reachable' := h.reachable.later passes.later
  unfold Reader.foretold
  rw [stage]
  dsimp only
  rcases passes.reader_goes hi with stays | ⟨middle, cache, before, hm, hc, due, still, pass, after⟩
  · have waits := (move?_none quiet).2 reader (List.mem_of_getElem? stays)
    rw [isDue, shows'.cache, Option.any_some] at waits
    have ahead : w'.now < time := by simpa [Reader.isDue, stage] using waits
    exact ⟨reader, stays, by rw [if_pos ahead, stage]⟩
  · have peaceful := h.passes before
    have come : time ≤ middle.now := by simpa [Reader.isDue, stage] using due
    obtain rfl := le_antisymm come ((peaceful.reachable.awaited i reader hm).2 time stage)
    obtain ⟨y, shows_y, moves⟩ := h.shows_passes shows before
    have later : Passes middle w' := .head pass after
    obtain ⟨x'', shows'', moves'⟩ := peaceful.shows_passes shows_y later
    obtain rfl := shows''.unique shows'
    obtain rfl := Option.some.inj (shows_y.cache.symm.trans hc)
    obtain ⟨cache', reader', hc', hi', kept⟩ :=
      peaceful.reachable.promised hm stage le_rfl hc after.later
    obtain rfl := Option.some.inj (hc'.symm.trans shows'.cache)
    obtain ⟨new, publications, young⟩ :=
      (peaceful.atRest still shows_y).publications (steady.moves moves) moves'
    have published := shows_y.published peaceful.reachable
    have config := (Chain.Later.follows (Chain.Moves.later moves')).config
    have current : (x''.cache.asOf middle.now).current = y.cache.current := by
      unfold Cache.asOf
      dsimp only
      rw [published.current, publications, List.filter_append, List.filter_eq_self.mpr,
        List.filter_eq_nil_iff.mpr, List.append_nil]
      · intro issued member
        have past := young issued member
        rw [shows_y.now] at past
        simpa using past
      · intro issued member
        have past := published.past issued member
        rw [shows_y.now] at past
        simpa using past
    have told : reader'.stage = Reader.awaits y.cache.config middle.now w'.now
        (y.cache.promise (reader.canWait y.cache.config.maxWait) middle.now
          x''.cache.publications.head?) := by
      apply reachable'.stage_of_promise hi'
      exact kept.imp_right fun late => ⟨late.1, late.2.2 quiet⟩
    refine ⟨reader', hi', ?_⟩
    rw [if_neg (Nat.not_lt.mpr (Later.now_le peaceful.reachable.sound later.later)), told, config,
      Cache.promise_congr current config]

theorem Passes.keeps_reader (passes : Passes w w') (hi : w.readers[i]? = some reader) :
    ∃ stage, w'.readers[i]? = some { reader with stage := stage } := by
  induction passes with
  | refl => exact ⟨reader.stage, hi⟩
  | @tail middle last before pass ih =>
    obtain ⟨stage, there⟩ := ih
    cases pass with
    | tick => exact ⟨stage, there⟩
    | move moved =>
      obtain ⟨p, pool, hp, -, rfl⟩ | ⟨-, j, other, cache, hj, hc, -, rfl⟩ := move?_cases moved
      · rw [work_readers]
        exact ⟨stage, there⟩
      · rw [attend_readers hj hc, List.getElem?_set]
        split
        · rename_i same
          subst same
          obtain rfl := Option.some.inj (there.symm.trans hj)
          obtain ⟨stage', next⟩ := Reader.next_stage { reader with stage := stage } cache middle.now
          rw [if_pos (List.getElem?_eq_some_iff.mp there).1, next]
          exact ⟨stage', rfl⟩
        · exact ⟨stage, there⟩

theorem Passes.readers_length (passes : Passes w w') : w'.readers.length = w.readers.length := by
  induction passes with
  | refl => rfl
  | tail before pass ih =>
    rw [← ih]
    cases pass with
    | tick => rfl
    | move moved => simpa using congrArg List.length (move?_stays moved)

/-- All readers of the cache are where they are foretold to be. -/
theorem Peaceful.foretold (h : w.Peaceful) (shows : w.Shows c x) (steady : x.Steady start)
    {old own : List Reader} (readers : w.readers = old ++ own)
    (served : ∀ reader ∈ old, reader.isServed = true) (mine : ∀ reader ∈ own, reader.cache = c)
    (suits : ∀ reader ∈ own, reader.Suits x) (passes : Passes w w') (quiet : w'.move? = none)
    (shows' : w'.Shows c x') : w'.readers = old ++ own.map fun reader =>
      { reader with stage := reader.foretold x'.cache w'.now } := by
  have told {i : Nat} {reader : Reader} (hi : w.readers[i]? = some reader) (member : reader ∈ own) :
      w'.readers[i]? = some { reader with stage := reader.foretold x'.cache w'.now } := by
    obtain rfl := mine reader member
    obtain ⟨stage, there⟩ := passes.keeps_reader hi
    suffices stage = reader.foretold x'.cache w'.now by rw [there, this]
    cases before : reader.stage with
    | served asked time token =>
      have stays := Later.reader_stays h.reachable.sound passes.later hi
        (by simp [Reader.isServed, before])
      rw [there] at stays
      have same := congrArg Reader.stage (Option.some.inj stays)
      simpa [Reader.foretold, before] using same
    | waiting asked deadline =>
      obtain ⟨missing, rfl, ahead⟩ := suits reader member asked deadline before
      obtain ⟨reader', hi', told⟩ :=
        h.foretold_waiting shows hi before missing (shows.now ▸ ahead) passes quiet shows'
      obtain rfl := Option.some.inj (there.symm.trans hi')
      exact told
    | coming time =>
      obtain ⟨reader', hi', told⟩ := h.foretold_coming shows steady hi before passes quiet shows'
      obtain rfl := Option.some.inj (there.symm.trans hi')
      exact told
  -- Place by place: those who were served stay so, and the others are as foretold.
  apply List.ext_getElem?
  intro i
  cases hi : w.readers[i]? with
  | none =>
    have beyond := List.getElem?_eq_none_iff.mp hi
    rw [List.getElem?_eq_none_iff.mpr (passes.readers_length.trans_le beyond),
      List.getElem?_eq_none_iff.mpr]
    simpa [readers] using beyond
  | some reader =>
    have place := hi
    rw [readers, List.getElem?_append] at place
    rw [List.getElem?_append]
    split at place
    · rename_i before
      rw [if_pos before, place]
      exact Later.reader_stays h.reachable.sound passes.later hi
        (served reader (List.mem_of_getElem? place))
    · rename_i after
      rw [if_neg after, List.getElem?_map, place]
      exact told hi (List.mem_of_getElem? place)

end World
end TokenKeeper
