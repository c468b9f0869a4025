import TokenKeeper.Proofs.Chain.Published
/-! When the calls of an issuer begin: never before the delay after the call before it is over, and
right then on a worker that nothing holds. -/
namespace TokenKeeper

section Calls
variable {exact : Prop} {start : Instant} {config : Config} {issuer : Issuer}
  {attempts : List Attempt}

theorem Timed.first (h : Timed exact start config issuer attempts) {first : Attempt}
    (hf : attempts.reverse[0]? = some first) : OnTime exact start first.began := by
  induction attempts with
  | nil => simp at hf
  | cons latest earlier ih =>
    obtain ⟨⟨due, next, on_time⟩, -, timed⟩ := h
    rw [List.reverse_cons] at hf
    obtain old | ⟨empty, rfl⟩ := getElem?_concat_cases hf
    · exact ih timed old
    · rw [List.length_reverse] at empty
      obtain rfl := List.eq_nil_of_length_eq_zero empty.symm
      cases next
      exact on_time

theorem Timed.next (h : Timed exact start config issuer attempts) {k : Nat}
    {older newer : Attempt} (ho : attempts.reverse[k]? = some older)
    (hn : attempts.reverse[k + 1]? = some newer) :
    ∃ due, older.nextAt? config = some due ∧ OnTime exact due newer.began := by
  induction attempts with
  | nil => simp at ho
  | cons latest earlier ih =>
    obtain ⟨⟨due, next, on_time⟩, -, timed⟩ := h
    rw [List.reverse_cons] at ho hn
    rcases getElem?_concat_cases hn with old | ⟨size, rfl⟩
    · rcases getElem?_concat_cases ho with older_old | ⟨size, -⟩
      · exact ih timed older_old old
      · have bound := (List.getElem?_eq_some_iff.mp old).1
        omega
    · -- The newer call is the latest, and the older one the latest before it.
      rw [List.length_reverse] at size
      cases earlier with
      | nil => simp at size
      | cons before rest =>
        rw [List.length_cons] at size
        obtain rfl : k = rest.length := by omega
        rw [List.getElem?_append_left (by simp), List.reverse_cons,
          List.getElem?_append_right (by simp), List.length_reverse, Nat.sub_self] at ho
        obtain rfl := Option.some.inj ho
        exact ⟨due, next, on_time⟩

theorem Timed.consecutive (h : Timed exact start config issuer attempts) {k : Nat}
    {older newer : Attempt} (ho : attempts.reverse[k]? = some older)
    (hn : attempts.reverse[k + 1]? = some newer) :
    ∃ ended reply concluded, older.ended = some (ended, reply) ∧
      older.concluded = some concluded ∧ reply = (issuer k).reply ∧
      OnTime exact ended concluded ∧
      OnTime exact (ended.afterRest (config.delayAfter reply)) newer.began := by
  obtain ⟨due, next, on_time⟩ := h.next ho hn
  obtain ⟨ended, reply, concluded, he, hc, rfl⟩ := Attempt.nextAt?_some next
  have regular := h.regular ho
  obtain ⟨ended', reply', he', taken⟩ := regular.concluded concluded hc
  rw [he] at he'
  cases he'
  exact ⟨ended, reply, concluded, he, hc, (regular.ended ended reply he).2, taken, on_time⟩

end Calls

theorem latest_of_last {attempts : List Attempt} {k : Nat} {last : Attempt}
    (hl : attempts.reverse[k]? = some last) (none_after : attempts.reverse[k + 1]? = none) :
    ∃ earlier, attempts = last :: earlier := by
  cases attempts with
  | nil => simp at hl
  | cons latest earlier =>
    rw [List.reverse_cons] at hl none_after
    obtain old | ⟨-, rfl⟩ := getElem?_concat_cases hl
    · have bound := (List.getElem?_eq_some_iff.mp old).1
      have beyond := List.getElem?_eq_none_iff.mp none_after
      rw [List.length_append, List.length_singleton] at beyond
      omega
    · exact ⟨earlier, rfl⟩

/-- In an exact chain of an open cache the next call is not overdue, and not even due if the live
runs all rest beyond the present. -/
theorem Chain.Sound.not_overdue {start : Instant} {x : Chain} (h : x.Sound True start)
    (on : x.scheduler.isShutDown = false) {due : Instant}
    (hd : x.cache.attempts = [] ∧ due = start ∨
      ∃ latest earlier time reply, x.cache.attempts = latest :: earlier ∧
        latest.ended = some (time, reply) ∧
        due = time.afterRest (x.cache.config.delayAfter reply)) :
    x.now ≤ due ∧ ((∀ task ∈ x.live, ∃ at', task.due? = some at' ∧ x.now < at') → x.now < due) := by
  have known {next : Instant} (hn : x.nextCall? start = some next) : next = due := by
    unfold Chain.nextCall? TokenKeeper.nextCall? at hn
    obtain ⟨none_yet, rfl⟩ | ⟨latest, earlier, time, reply, attempts, he, rfl⟩ := hd
    · rw [none_yet] at hn
      exact (Option.some.inj hn).symm
    · rw [attempts] at hn
      obtain ⟨_, _, _, he', -, rfl⟩ := Attempt.nextAt?_some hn
      rw [he] at he'
      cases he'
      rfl
  have latest {attempt : Attempt} {earlier : List Attempt}
      (attempts : x.cache.attempts = attempt :: earlier) :
      ∃ time reply, attempt.ended = some (time, reply) ∧ time ≤ due := by
    obtain ⟨none_yet, -⟩ | ⟨_, _, time, reply, attempts', he, rfl⟩ := hd
    · rw [none_yet] at attempts
      cases attempts
    · rw [attempts] at attempts'
      cases attempts'
      exact ⟨time, reply, he, time.le_afterRest _⟩
  obtain ⟨task, alone⟩ := Multiset.card_eq_one.mp (h.alive on)
  have stands := h.stands task (by rw [alone]; simp)
  have awake (none_due : task.due? = none)
      (all : ∀ task ∈ x.live, ∃ at', task.due? = some at' ∧ x.now < at') : x.now < due := by
    obtain ⟨_, hd, -⟩ := all task (by rw [alone]; simp)
    rw [none_due] at hd
    cases hd
  -- Whichever task the only live run is at, it is due when the next call is, or before.
  cases stands with
  | begin next time => exact ⟨known next ▸ time.late trivial, awake rfl⟩
  | fetch next time => exact ⟨known next ▸ time.late trivial, awake rfl⟩
  | pending hn time ahead =>
    have le := known hn ▸ time.late trivial
    refine ⟨(ahead trivial).trans le, fun all => ?_⟩
    rw [alone] at all
    obtain ⟨_, at', lt⟩ := all _ (Multiset.mem_singleton_self _)
    cases at'
    exact lt.trans_le le
  | delayed attempts he _ _ time | conclude attempts he _ time =>
    obtain ⟨_, _, he', le⟩ := latest attempts
    rw [he] at he'
    cases he'
    exact ⟨(time.late trivial).trans le, awake rfl⟩
  | call attempts he =>
    obtain ⟨_, _, he', -⟩ := latest attempts
    rw [he] at he'
    cases he'

namespace World
variable {w w' : World} {c : CacheId} {p : PoolId}

/-- The cache is open and works on the pool, and nothing holds the pool's worker. -/
def Undisturbed (w : World) (c : CacheId) (p : PoolId) : Prop :=
  (∃ cache scheduler, w.caches[c]? = some cache ∧
    w.schedulers[cache.scheduler]? = some scheduler ∧ scheduler.pool = some p) ∧
  ∀ pool task free, w.pools[p]? = some pool → pool.worker.stage ≠ .held task free

abbrev LaterUndisturbed (c : CacheId) (p : PoolId) : World → World → Prop :=
  Relation.ReflTransGen fun before after => Step before after ∧ before.Undisturbed c p

theorem LaterUndisturbed.later (run : LaterUndisturbed c p w w') : Later w w' :=
  Relation.ReflTransGen.mono (fun _ _ step => step.1) _ _ run

theorem Undisturbed.not_blocked (undisturbed : w.Undisturbed c p) (h : w.Sound) {x : Chain}
    (shows : w.Shows c x) : ¬w.Blocked x.cache.scheduler := by
  rintro ⟨q, pool, hq, ⟨holder, free, stage⟩, task, ht, mine⟩
  obtain ⟨⟨cache, scheduler, hc, hs, on⟩, unheld⟩ := undisturbed
  obtain rfl := Option.some.inj (shows.cache.symm.trans hc)
  obtain rfl := (h.tasks q pool hq task ht).2 _ scheduler p mine hs on
  exact unheld pool holder free hq stage

/-- On a worker that nothing holds the chain is exact. -/
theorem Shows.laterUndisturbed {x : Chain} (shows : w.Shows c x) (h : w.Sound)
    (run : LaterUndisturbed c p w w') : Shown (¬True) w' c x := by
  induction run with
  | refl => exact ⟨x, shows, .refl⟩
  | tail before step ih =>
    obtain ⟨x', shows', later'⟩ := ih
    have sound := h.later (LaterUndisturbed.later before)
    obtain ⟨x'', shows'', later''⟩ := shows'.step sound step.1
    refine ⟨x'', shows'', later'.trans (Chain.Later.mono later'' fun blocked => ?_)⟩
    exact (step.2.not_blocked sound shows' blocked).elim

end World

namespace Cache

/-- No call begins before the delay after the one before it is over. -/
def NeverEarly (cache : Cache) : Prop :=
  ∀ (k : Nat) older newer, cache.calls[k]? = some older → cache.calls[k + 1]? = some newer →
    ∃ time reply, older.ended = some (time, reply) ∧ reply = (cache.issuer k).reply ∧
      (cache.config.delayAfter reply ≤ Span.longestRest →
        time + cache.config.delayAfter reply ≤ newer.began)

/-- Each call begins right when it is due, the first one at the start. After a success that is when
the token says that it is refreshed. -/
structure Prompt (cache : Cache) (start : Instant) : Prop where
  first : ∀ first, cache.calls[0]? = some first → first.began = start
  next : ∀ (k : Nat) older newer time reply, cache.calls[k]? = some older →
    cache.calls[k + 1]? = some newer → older.ended = some (time, reply) →
    cache.config.delayAfter reply ≤ Span.longestRest →
      newer.began = time + cache.config.delayAfter reply
  refresh : ∀ (k : Nat) older newer issued, cache.calls[k]? = some older →
    cache.calls[k + 1]? = some newer → older.issued? cache.config = some issued →
    issued.refreshDelay ≤ Span.longestRest → newer.began < Instant.limit →
      issued.refreshAt = some newer.began

/-- Every call that is due has begun, where `past` says which moments are over. -/
structure KeptUp (cache : Cache) (start : Instant) (past : Instant → Prop) : Prop where
  first : past start → cache.calls ≠ []
  next : ∀ (k : Nat) older time reply, cache.calls[k]? = some older →
    older.ended = some (time, reply) → cache.config.delayAfter reply ≤ Span.longestRest →
    past (time + cache.config.delayAfter reply) → ∃ newer, cache.calls[k + 1]? = some newer

end Cache

namespace Chain.Sound
variable {exact : Prop} {start : Instant} {x : Chain}

theorem neverEarly (h : x.Sound exact start) : x.cache.NeverEarly := by
  intro k older newer ho hn
  obtain ⟨time, reply, _, he, -, script, -, on_time⟩ := h.timed.consecutive ho hn
  refine ⟨time, reply, he, script, fun short => ?_⟩
  have early := on_time.early
  rwa [Instant.afterRest, Nat.min_eq_left short] at early

theorem prompt (h : x.Sound True start) : x.cache.Prompt start where
  first := fun first hf =>
    have on_time := h.timed.first hf
    le_antisymm (on_time.late trivial) on_time.early
  next := fun k older newer time reply ho hn he short => by
    obtain ⟨_, _, _, he', -, -, -, on_time⟩ := h.timed.consecutive ho hn
    rw [he] at he'
    cases he'
    have same := le_antisymm (on_time.late trivial) on_time.early
    rwa [Instant.afterRest, Nat.min_eq_left short] at same
  refresh := fun k older newer issued ho hn issues short inside => by
    obtain ⟨time, reply, received, he, hc, -, taken, on_time⟩ := h.timed.consecutive ho hn
    obtain ⟨_, _, _, token, lifetime, he', hc', usable, rfl⟩ := Attempt.issued?_some issues
    rw [he] at he'
    rw [hc] at hc'
    cases he'
    cases hc'
    rw [x.cache.config.delayAfter_ok usable] at on_time
    change x.cache.config.refreshDelay lifetime ≤ _ at short
    obtain rfl : time = received := le_antisymm taken.early (taken.late trivial)
    have began := le_antisymm (on_time.late trivial) on_time.early
    rw [Instant.afterRest, Nat.min_eq_left short] at began
    rw [began] at inside ⊢
    exact if_pos inside

theorem keptUp (h : x.Sound True start) (on : x.scheduler.isShutDown = false)
    {past : Instant → Prop} (lapsed : ∀ time, past time → time < x.now ∨ time ≤ x.now ∧
      ∀ task ∈ x.live, ∃ due, task.due? = some due ∧ x.now < due) : x.cache.KeptUp start past where
  first := fun gone none_yet => by
    obtain ⟨le, lt⟩ := h.not_overdue on (.inl ⟨List.reverse_eq_nil_iff.mp none_yet, rfl⟩)
    obtain before | ⟨before, rest⟩ := lapsed start gone
    · exact absurd le before.not_ge
    · exact absurd (lt rest) before.not_gt
  next := fun k older time reply ho he short gone => by
    cases hn : x.cache.calls[k + 1]? with
    | some newer => exact ⟨newer, rfl⟩
    | none =>
      obtain ⟨earlier, attempts⟩ := latest_of_last ho hn
      obtain ⟨le, lt⟩ := h.not_overdue on (.inr ⟨older, earlier, time, reply, attempts, he, rfl⟩)
      rw [Instant.afterRest, Nat.min_eq_left short] at le lt
      obtain before | ⟨before, rest⟩ := lapsed _ gone
      · exact absurd le before.not_ge
      · exact absurd (lt rest) before.not_gt

end Chain.Sound

namespace World
variable {w : World}

def Past (w : World) (time : Instant) : Prop := time < w.now ∨ time ≤ w.now ∧ w.move? = none

/-- No call begins before the delay after the call before it is over. If nothing holds the worker of
an open cache, each begins right when it is due, and none is left out. -/
theorem calls_begin_when_due (h : Reachable w) :
    (∀ (c : CacheId) cache, w.caches[c]? = some cache → cache.NeverEarly) ∧
      ∀ config issuer c p opened w' cache, w.openCache config issuer = (.ok c, opened) →
        LaterUndisturbed c p opened w' → w'.caches[c]? = some cache →
          cache.Prompt w.now ∧ (w'.Undisturbed c p → cache.KeptUp w.now w'.Past) := by
  refine ⟨fun c cache hc => ?_, fun config issuer c p opened w' cache opens run hc => ?_⟩
  · obtain ⟨x, shows, rfl⟩ := h.sound.shows hc
    obtain ⟨start, sound⟩ := shows.sound h
    exact sound.neverEarly
  · have sound' : opened.Sound := Step.sound h.sound (.openCache opens)
    obtain ⟨first, shows, fresh, now, -⟩ := h.sound.openCache opens
    obtain ⟨x, shows', later⟩ := shows.laterUndisturbed sound' run
    have exact' : x.Sound True w.now := now ▸ fresh.sound.later later
    obtain rfl := Option.some.inj (shows'.cache.symm.trans hc)
    refine ⟨exact'.prompt, fun undisturbed => exact'.keptUp ?_ fun time past => ?_⟩
    · obtain ⟨⟨cache, scheduler, hc', hs, on⟩, -⟩ := undisturbed
      obtain rfl := Option.some.inj (shows'.cache.symm.trans hc')
      obtain rfl := Option.some.inj (shows'.scheduler.symm.trans hs)
      exact Scheduler.not_isShutDown_iff.mpr ⟨p, on⟩
    · rw [shows'.now]
      refine past.imp_right fun ⟨le, quiet⟩ => ⟨le, fun task ht => ?_⟩
      rw [shows'.live, mem_live] at ht
      obtain ⟨q, pool, hq, ht, mine⟩ := ht
      have sound'' := sound'.later (LaterUndisturbed.later run)
      obtain ⟨holder, free, stage, -⟩ | ⟨due, hd, ahead, -⟩ :=
        due_of_still sound'' (move?_none quiet).1 hq ht
      · exact (undisturbed.not_blocked sound'' shows'
          ⟨q, pool, hq, ⟨holder, free, stage⟩, task, ht, mine⟩).elim
      · exact ⟨due, hd, ahead⟩

theorem later_moves_undisturbed {n : Nat} (each : ∀ m < n, (moves m w).Undisturbed c p) :
    LaterUndisturbed c p w (moves n w) := by
  induction n generalizing w with
  | zero => exact .refl
  | succ n ih =>
    have first := each 0 n.succ_pos
    have others := fun m (less : m < n) => each (m + 1) (Nat.succ_lt_succ less)
    unfold moves at others ⊢
    cases moved : w.move? with
    | none => exact .refl
    | some next =>
      rw [moved] at others
      exact .head ⟨.move moved, first⟩ (ih others)

def isFree (w : World) : Bool :=
  (w.caches[0]?.bind fun cache => w.schedulers[cache.scheduler]?.bind (·.pool)) == some 0 &&
    w.pools.all fun pool => match pool.worker.stage with
      | .held .. => false
      | _ => true

theorem undisturbed_of_isFree (free : w.isFree = true) : w.Undisturbed 0 0 := by
  unfold isFree at free
  obtain ⟨there, unheld⟩ := Bool.and_eq_true_iff.mp free
  obtain ⟨cache, hc, there⟩ := Option.bind_eq_some_iff.mp (beq_iff_eq.mp there)
  obtain ⟨scheduler, hs, on⟩ := Option.bind_eq_some_iff.mp there
  refine ⟨⟨cache, scheduler, hc, hs, on⟩, fun pool task free hp stage => ?_⟩
  have := List.all_eq_true.mp unheld pool (List.mem_of_getElem? hp)
  simp [stage] at this

def staysFree (w : World) (n : Nat) : Bool := (List.range n).all fun m => (moves m w).isFree

theorem laterUndisturbed_moves {n : Nat} (free : w.staysFree n = true) :
    LaterUndisturbed 0 0 w (moves n w) := by
  apply later_moves_undisturbed
  intro m less
  exact undisturbed_of_isFree (List.all_eq_true.mp free m (List.mem_range.mpr less))

theorem laterUndisturbed_tick {t : Instant} (free : w.isFree = true)
    (quiet : w.quietTill t = true) : LaterUndisturbed 0 0 w { w with now := t } :=
  .single ⟨(Pass.of_quietTill quiet).step, undisturbed_of_isFree free⟩

/-- The second call begins when the token of the first one is to be refreshed. -/
theorem calls_begin_when_due_solo : ∃ cache first second issued,
    LaterUndisturbed 0 0 solo refreshed ∧ refreshed.caches[0]? = some cache ∧
      cache.calls = [first, second] ∧ cache.NeverEarly ∧ cache.Prompt Instant.start ∧
      cache.KeptUp Instant.start refreshed.Past ∧ first.issued? cache.config = some issued ∧
      issued.refreshAt = some second.began := by
  have run : LaterUndisturbed 0 0 solo refreshed :=
    ((laterUndisturbed_moves (by decide +kernel)).trans
      (laterUndisturbed_tick (by decide +kernel) (by decide +kernel))).trans
      (laterUndisturbed_moves (by decide +kernel))
  have seen : refreshed.caches[0]?.map (fun cache => cache.calls.map fun call =>
      (call.began, (call.issued? cache.config).map (·.refreshDelay))) =
      some [(Instant.start, some (Span.ofSecs 10)),
        (Instant.start + Span.ofSecs 10, some (Span.ofSecs 10))] := by decide +kernel
  obtain ⟨cache, hc, calls⟩ := Option.map_eq_some_iff.mp seen
  obtain ⟨first, rest, two, brought, calls⟩ := List.map_eq_cons_iff.mp calls
  obtain ⟨second, none, rfl, began, calls⟩ := List.map_eq_cons_iff.mp calls
  obtain rfl := List.map_eq_nil_iff.mp calls
  rw [Prod.mk.injEq] at brought began
  obtain ⟨issued, issues, short⟩ := Option.map_eq_some_iff.mp brought.2
  have early := (calls_begin_when_due reachable_refreshed).1 0 cache hc
  obtain ⟨prompt, kept⟩ :=
    (calls_begin_when_due reachable_new).2 _ _ 0 0 solo _ cache solo_opens run hc
  refine ⟨cache, first, second, issued, run, hc, two, early, prompt,
    kept (undisturbed_of_isFree (by decide +kernel)), issues, ?_⟩
  apply prompt.refresh 0 first second issued (by rw [two]; rfl) (by rw [two]; rfl) issues
  · rw [short]
    decide
  · rw [began.1]
    decide +kernel

end World
end TokenKeeper
