import TokenKeeper.Proofs.Chain.Calm
import TokenKeeper.Proofs.Chain.Observed
/-! When readers are answered, and with what. Who finds a token goes on at once; who finds none
waits for the first one, or until the time is up. -/
namespace TokenKeeper

/-- Whether it can wait: no time at all is too short for a reader that does not block its thread. -/
def Reader.canWait (reader : Reader) (maxWait : Span) : Bool := reader.blocking || maxWait ≠ 0

section Coming
variable {reader : Reader} {cache : Cache} {time : Instant} (now : Instant)

theorem Reader.next_token (coming : reader.stage = .coming time) {issued : Issued}
    (there : cache.current = some issued) :
    (reader.next cache now).stage = .served now now (some issued.token) := by
  simp only [next, coming, there]

theorem Reader.next_hasty (coming : reader.stage = .coming time) (missing : cache.current = none)
    (hasty : reader.canWait cache.config.maxWait = false) :
    (reader.next cache now).stage = .served now (now + cache.config.maxWait) none := by
  have no_time : reader.blocking = false ∧ cache.config.maxWait = 0 := by
    simpa [canWait] using hasty
  simp [next, coming, missing, no_time]

theorem Reader.next_waits (coming : reader.stage = .coming time) (missing : cache.current = none)
    (waits : reader.canWait cache.config.maxWait = true) :
    (reader.next cache now).stage = .waiting now (now + cache.config.maxWait) := by
  have time_left : ¬(reader.blocking = false ∧ cache.config.maxWait = 0) := by
    simpa [canWait, imp_iff_not_or, or_comm] using waits
  simp [next, coming, missing, time_left]

end Coming

/-- The answer for a reader that asks at this time, and when it comes, where `first?` is the first
token there ever is. -/
def Cache.promise (cache : Cache) (waits : Bool) (asked : Instant) (first? : Option Issued) :
    Option AccessToken × Instant :=
  let deadline := asked + cache.config.maxWait
  match cache.current, first? with
  | some issued, _ => (some issued.token, asked)
  | none, some first =>
    if waits && first.received ≤ deadline then (some first.token, first.received)
    else (none, deadline)
  | none, none => (none, deadline)

section Promise
variable {cache : Cache} {asked : Instant}

theorem Cache.promise_token {issued : Issued} (there : cache.current = some issued) (waits : Bool)
    (first? : Option Issued) : cache.promise waits asked first? = (some issued.token, asked) := by
  unfold promise
  rw [there]

theorem Cache.promise_hasty (missing : cache.current = none) (first? : Option Issued) :
    cache.promise false asked first? = (none, asked + cache.config.maxWait) := by
  unfold promise
  rw [missing]
  cases first? <;> rfl

theorem Cache.promise_first (missing : cache.current = none) {first : Issued}
    (le : first.received ≤ asked + cache.config.maxWait) :
    cache.promise true asked (some first) = (some first.token, first.received) := by
  unfold promise
  rw [missing]
  simp [le]

theorem Cache.promise_late (missing : cache.current = none) {first? : Option Issued}
    (late : ∀ first, first? = some first → asked + cache.config.maxWait < first.received)
    (waits : Bool) :
    cache.promise waits asked first? = (none, asked + cache.config.maxWait) := by
  unfold promise
  rw [missing]
  cases first? with
  | none => rfl
  | some first => simp [late first rfl]

end Promise

namespace World
variable {w w' : World} {c : CacheId} {s : SchedulerId} {i : Nat} {reader : Reader}
  {asked deadline : Instant} {publications : List Issued}

/-- How a reader fares that asked when there was no token, and can wait. -/
inductive Fares (w : World) (s : SchedulerId) (asked deadline : Instant)
    (publications : List Issued) : Reader.Stage → Prop where
  | waiting (ahead : w.now ≤ deadline)
      (just : ∀ issued ∈ publications, issued.received = w.now) :
      Fares w s asked deadline publications (.waiting asked deadline)
  | first {first later} (h : publications = first :: later) (le : first.received ≤ deadline) :
      Fares w s asked deadline publications (.served asked first.received (some first.token))
  /-- No token can come any more at the moment when the wait is over. -/
  | inVain (lapsed : deadline < w.now ∨ deadline = w.now ∧ w.Calm s)
      (late : ∀ issued ∈ publications, deadline < issued.received) :
      Fares w s asked deadline publications (.served asked deadline none)

/-- Nothing keeps a reader waiting whose time is up, or that sees a token. -/
theorem waits_of_quiet (quiet : w.move? = none) (hi : w.readers[i]? = some reader) {cache : Cache}
    (hc : w.caches[reader.cache]? = some cache) (ready : cache.ready = cache.current.isSome)
    (stage : reader.stage = .waiting asked deadline) : cache.current = none ∧ w.now < deadline := by
  have still := (move?_none quiet).2 reader (List.mem_of_getElem? hi)
  simp only [isDue, hc, Option.any_some, Reader.isDue, stage, Reader.sees_iff ready,
    Bool.or_eq_false_iff, decide_eq_false_iff_not, Nat.not_le] at still
  exact ⟨Option.isSome_eq_false_iff.mp still.2 |> Option.isNone_iff_eq_none.mp, still.1⟩

namespace Fares
variable {x : Chain}

theorem time (shows : w.Shows reader.cache x) (published : x.Published)
    (hi : w.readers[i]? = some reader) {t : Instant} (quiet : w.move? = none) (later : w.now ≤ t)
    (next : ∀ time, w.nextTime? = some time → t ≤ time)
    (fares : Fares w s asked deadline x.cache.publications reader.stage) :
    Fares { w with now := t } s asked deadline x.cache.publications reader.stage := by
  generalize stage : reader.stage = now at fares ⊢
  cases fares with
  | waiting ahead just =>
    obtain ⟨unseen, -⟩ := waits_of_quiet quiet hi shows.cache published.ready stage
    rw [published.current, List.getLast?_eq_none_iff] at unseen
    have wakes : reader.wakes = some deadline := by simp only [Reader.wakes, stage]
    obtain ⟨first, hf, le⟩ := nextTime?_le_reader (List.mem_of_getElem? hi) wakes
    exact .waiting ((next first hf).trans le) (by simp [unseen])
  | first h le => exact .first h le
  | inVain lapsed late =>
    refine .inVain ?_ late
    rcases lapsed with lapsed | ⟨now, calm⟩
    · exact .inl (lapsed.trans_le later)
    · rcases later.eq_or_lt with same | more
      · subst same
        exact .inr ⟨now, calm⟩
      · exact .inl (now ▸ more)

theorem others (shows : w.Shows c x) (h : w.Sound) (happens : Happens w w')
    (now : w'.now = w.now) {cache : Cache} (hc : w'.caches[c]? = some cache) {new : List Issued}
    (added : cache.publications = x.cache.publications ++ new)
    (received : ∀ issued ∈ new, issued.received = w.now) {stage : Reader.Stage}
    (fares : Fares w x.cache.scheduler asked deadline x.cache.publications stage) :
    Fares w' x.cache.scheduler asked deadline cache.publications stage := by
  cases fares with
  | waiting ahead just =>
    refine .waiting (now ▸ ahead) fun issued member => ?_
    rw [added] at member
    rw [now]
    exact (List.mem_append.mp member).elim (just issued) (received issued)
  | @first first later before le =>
    have more : cache.publications = first :: (later ++ new) := by
      rw [added, before, List.cons_append]
    exact .first more le
  | inVain lapsed late =>
    rcases lapsed with lapsed | ⟨up, calm⟩
    · refine .inVain (.inl (now ▸ lapsed)) fun issued member => ?_
      rw [added] at member
      refine (List.mem_append.mp member).elim (late issued) fun young => ?_
      rwa [received issued young]
    · obtain ⟨calm', cache', hc', same⟩ := calm.happens h shows happens now
      obtain rfl := Option.some.inj (hc.symm.trans hc')
      exact .inVain (.inr ⟨up.trans now.symm, calm'⟩) (same ▸ late)

theorem goes (h : w.Sound) (published : x.Published)
    (due : reader.isDue x.cache w.now = true)
    (still : (∃ time, reader.stage = .coming time) ∨
      ∀ pool ∈ w.pools, pool.worker.isReady w.now = false)
    (fares : Fares w s asked deadline x.cache.publications reader.stage) :
    Fares (w.attend i) s asked deadline x.cache.publications (reader.next x.cache w.now).stage := by
  generalize stage : reader.stage = now at fares
  cases fares with
  | waiting ahead just =>
    have calm : (w.attend i).Calm s := by
      rcases still with ⟨time, coming⟩ | still
      · rw [coming] at stage
        cases stage
      · exact (h.calm still s).congr (attend_now w i) (attend_pools w i)
    have next : (reader.next x.cache w.now).stage =
        .served asked w.now (x.cache.current.map (·.token)) := by
      simp only [Reader.next, stage]
    rw [next, published.current]
    cases publications : x.cache.publications with
    | nil =>
      have up : deadline ≤ w.now := by
        have unseen : x.cache.current = none := by rw [published.current, publications]; rfl
        simpa [Reader.isDue, stage, Reader.sees_iff published.ready, unseen] using due
      obtain rfl := le_antisymm up ahead
      exact .inVain (.inr ⟨(attend_now w i).symm, calm⟩) (by simp)
    | cons first later =>
      -- Two tokens are never published at one moment.
      have apart := published.apart
      rw [publications] at apart just
      have only : later = [] := by
        apply List.eq_nil_iff_forall_not_mem.mpr
        intro second member
        have lt := (List.pairwise_cons.mp apart).1 second member
        rw [just first List.mem_cons_self, just second (List.mem_cons_of_mem _ member)] at lt
        exact lt.false
      have at_once := just first List.mem_cons_self
      subst only
      exact at_once ▸ .first rfl (at_once ▸ ahead)
  | first | inVain => simp [Reader.isDue, stage] at due

theorem step (h : Reachable w) (step : Step w w') (hi : w.readers[i]? = some reader)
    {cache : Cache} (hc : w.caches[reader.cache]? = some cache)
    (fares : Fares w cache.scheduler asked deadline cache.publications reader.stage) :
    ∃ cache' reader', w'.caches[reader.cache]? = some cache' ∧ w'.readers[i]? = some reader' ∧
      reader'.cache = reader.cache ∧
      Fares w' cache'.scheduler asked deadline cache'.publications reader'.stage := by
  obtain ⟨x, start, shows, rfl, sound, published⟩ := h.known hc
  have happens := step.happens h.sound
  rcases happens.reader_goes h.sound hi with stays | ⟨cache, hc', due, rfl, still⟩
  · rcases happens.now h.sound with now | ⟨t, rfl, quiet, later, next⟩
    · obtain ⟨x', shows', later⟩ := shows.later h.sound (.single step)
      obtain ⟨published', -, new, added, from_now⟩ :=
        published.later sound (Chain.Later.mono later fun _ => id)
      refine ⟨x'.cache, reader, shows'.cache, stays, rfl, ?_⟩
      rw [(Chain.Later.follows later).scheduler]
      refine fares.others shows h.sound happens now shows'.cache added fun issued member => ?_
      have upto := published'.past issued (by rw [added]; exact List.mem_append_right _ member)
      rw [shows'.now, now] at upto
      exact le_antisymm upto (shows.now ▸ from_now issued member)
    · exact ⟨x.cache, reader, shows.cache, hi, rfl,
        fares.time shows published hi quiet later next⟩
  · obtain rfl := Option.some.inj (hc.symm.trans hc')
    refine ⟨x.cache, reader.next x.cache w.now, by rw [attend_caches, hc], ?_,
      Reader.next_cache _ _ _, fares.goes h.sound published due still⟩
    rw [attend_readers hi hc, List.getElem?_set_self (List.getElem?_eq_some_iff.mp hi).1]

theorem later (h : Reachable w) (later : Later w w') (hi : w.readers[i]? = some reader)
    {cache : Cache} (hc : w.caches[reader.cache]? = some cache)
    (fares : Fares w cache.scheduler asked deadline cache.publications reader.stage) :
    ∃ cache' reader', w'.caches[reader.cache]? = some cache' ∧ w'.readers[i]? = some reader' ∧
      reader'.cache = reader.cache ∧
      Fares w' cache'.scheduler asked deadline cache'.publications reader'.stage := by
  induction later with
  | refl => exact ⟨cache, reader, hc, hi, rfl, fares⟩
  | tail before step ih =>
    obtain ⟨cache', reader', hc', hi', same, fares'⟩ := ih
    rw [← same] at hc' ⊢
    obtain ⟨cache'', reader'', hc'', hi'', same', fares''⟩ :=
      fares'.step (h.later before) step hi' hc'
    exact ⟨cache'', reader'', hc'', hi'', same', fares''⟩

/-- Who fares like that gets what is promised. -/
theorem kept {cache : Cache} (missing : cache.current = none) {stage : Reader.Stage}
    (fares : Fares w s asked (asked + cache.config.maxWait) publications stage)
    (quiet : w.move? = none → ∀ deadline, stage = .waiting asked deadline →
      publications = [] ∧ w.now < deadline) :
    let promise := cache.promise true asked publications.head?
    stage = .served asked promise.2 promise.1 ∨
      stage = .waiting asked (asked + cache.config.maxWait) ∧ w.now ≤ promise.2 ∧
        (w.move? = none → w.now < promise.2) := by
  cases fares with
  | waiting ahead just =>
    right
    cases publications with
    | nil =>
      rw [List.head?_nil, Cache.promise_late missing (by simp)]
      exact ⟨rfl, ahead, fun still => (quiet still _ rfl).2⟩
    | cons first later =>
      have now := just first List.mem_cons_self
      rw [List.head?_cons, Cache.promise_first missing (now ▸ ahead)]
      refine ⟨rfl, now.ge, fun still => ?_⟩
      cases (quiet still _ rfl).1
  | first h le =>
    left
    rw [h, List.head?_cons, Cache.promise_first missing le]
  | inVain lapsed late =>
    left
    rw [Cache.promise_late missing fun first member => late first (List.mem_of_head? member)]

end Fares

theorem Reachable.noted (h : Reachable w) (shown : w.verbosity.isSome = true) :
    w.elapsed.Perm (w.readers.filterMap w.inVain?) := by
  obtain ⟨now, verbosity, run⟩ := h
  induction run with
  | refl => exact .nil
  | @tail middle last before step ih =>
    have reached : Reachable middle := ⟨now, verbosity, before⟩
    have happens := step.happens reached.sound
    rw [happens.verbosity reached.sound] at shown
    refine happens.elapsed reached.sound reached.awaited (fun c cache hc => ?_) shown (ih shown)
    obtain ⟨x, -, -, rfl, -, published⟩ := reached.known hc
    exact published.ready

theorem Reachable.promised (h : Reachable w) {time : Instant} {cache : Cache}
    (hi : w.readers[i]? = some reader) (coming : reader.stage = .coming time) (due : time ≤ w.now)
    (hc : w.caches[reader.cache]? = some cache) (later : Later (w.attend i) w') :
    ∃ cache' reader', w'.caches[reader.cache]? = some cache' ∧ w'.readers[i]? = some reader' ∧
      let promise := cache.promise (reader.canWait cache.config.maxWait) w.now
        cache'.publications.head?
      reader'.stage = .served w.now promise.2 promise.1 ∨
        reader'.stage = .waiting w.now (w.now + cache.config.maxWait) ∧ w'.now ≤ promise.2 ∧
          (w'.move? = none → w'.now < promise.2) := by
  have came : Reachable (w.attend i) := h.later (.single (.arrive hi coming due))
  have hi' : (w.attend i).readers[i]? = some (reader.next cache w.now) := by
    rw [attend_readers hi hc, List.getElem?_set_self (List.getElem?_eq_some_iff.mp hi).1]
  have hc' : (w.attend i).caches[(reader.next cache w.now).cache]? = some cache := by
    rw [attend_caches, Reader.next_cache, hc]
  have at_once {time : Instant} {token : Option AccessToken}
      (stage : (reader.next cache w.now).stage = .served w.now time token) :
      ∃ cache', w'.caches[reader.cache]? = some cache' ∧
        w'.readers[i]? = some (reader.next cache w.now) := by
    obtain ⟨cache', hc'', -⟩ := came.extends later hc'
    rw [Reader.next_cache] at hc''
    exact ⟨cache', hc'', Later.reader_stays came.sound later hi' (by simp [Reader.isServed, stage])⟩
  cases current : cache.current with
  | some issued =>
    have stage := Reader.next_token w.now coming current
    obtain ⟨cache', hc'', stays⟩ := at_once stage
    exact ⟨cache', _, hc'', stays, .inl (by rw [Cache.promise_token current, stage])⟩
  | none =>
    cases waits : reader.canWait cache.config.maxWait with
    | false =>
      have stage := Reader.next_hasty w.now coming current waits
      obtain ⟨cache', hc'', stays⟩ := at_once stage
      exact ⟨cache', _, hc'', stays, .inl (by rw [Cache.promise_hasty current, stage])⟩
    | true =>
      -- There is no token yet, so the first one that comes is the first publication.
      have nothing : cache.publications = [] := by
        rw [(h.folded hc).current] at current
        exact List.getLast?_eq_none_iff.mp current
      have fares : Fares (w.attend i) cache.scheduler w.now (w.now + cache.config.maxWait)
          cache.publications (reader.next cache w.now).stage := by
        rw [Reader.next_waits _ coming current waits, nothing]
        exact .waiting ((attend_now w i).trans_le (Nat.le_add_right _ _)) (by simp)
      obtain ⟨cache', reader', hc'', hi'', same, fares'⟩ := fares.later came later hi' hc'
      have there := hc''
      rw [Reader.next_cache] at there
      refine ⟨cache', reader', there, hi'', fares'.kept current fun quiet deadline waiting => ?_⟩
      obtain ⟨x, -, -, rfl, -, published⟩ := (came.later later).known hc''
      obtain ⟨unseen, ahead⟩ := waits_of_quiet quiet hi'' (same ▸ hc'') published.ready waiting
      rw [published.current, List.getLast?_eq_none_iff] at unseen
      exact ⟨unseen, ahead⟩

/-- A reader gets the token that is there when it comes. If there is none, it gets the first one
when it is published, or none when its time is up before; who cannot wait gets none at once. Just
the waits in vain are noted. -/
theorem readers_get_what_is_promised (h : Reachable w) :
    (w.verbosity.isSome = true → w.elapsed.Perm (w.readers.filterMap w.inVain?)) ∧
      ∀ (i : Nat) reader time cache, w.readers[i]? = some reader → reader.stage = .coming time →
        time ≤ w.now → w.caches[reader.cache]? = some cache → time = w.now ∧
          ∀ w', Later (w.attend i) w' → ∃ cache' reader',
            w'.caches[reader.cache]? = some cache' ∧ w'.readers[i]? = some reader' ∧
              let promise := cache.promise (reader.canWait cache.config.maxWait) w.now
                cache'.publications.head?
              reader'.stage = .served w.now promise.2 promise.1 ∨
                reader'.stage = .waiting w.now (w.now + cache.config.maxWait) ∧
                  w'.now ≤ promise.2 ∧ (w'.move? = none → w'.now < promise.2) := by
  refine ⟨h.noted, fun i reader time cache hi coming due hc => ⟨?_, fun w' later => ?_⟩⟩
  · exact le_antisymm due ((h.awaited i reader hi).2 time coming)
  · exact h.promised hi coming due hc later

/-- A reader that blocks its thread gets the token that comes just when it asks. -/
theorem readers_get_what_is_promised_solo : ∃ w cache cache' reader', Reachable w ∧
    w.caches[0]? = some cache ∧ w.readers[0]? = some ⟨0, true, .coming w.now⟩ ∧
    Later (w.attend 0) (moves 20 (w.attend 0)) ∧
    (moves 20 (w.attend 0)).caches[0]? = some cache' ∧
    (moves 20 (w.attend 0)).readers[0]? = some reader' ∧
    let promise := cache.promise true w.now cache'.publications.head?
    reader'.stage = .served w.now promise.2 promise.1 := by
  have reached := reachable_solo.later (.single (solo_expects true))
  obtain ⟨x, shows, -⟩ := reachable_new.sound.openCache solo_opens
  have now : solo.now = Instant.start := by decide +kernel
  have later := later_moves 20 ((solo.expect 0 true [Instant.start]).attend 0)
  have served : (moves 20 ((solo.expect 0 true [Instant.start]).attend 0)).readers[0]? =
      some ⟨0, true, .served Instant.start Instant.start (some ⟨"token"⟩)⟩ := by decide +kernel
  obtain ⟨-, promised⟩ := (readers_get_what_is_promised reached).2 0
    ⟨0, true, .coming Instant.start⟩ Instant.start x.cache (by decide +kernel) rfl now.ge
    shows.cache
  obtain ⟨cache', reader', hc', hi', kept | ⟨waiting, -⟩⟩ := promised _ later
  · refine ⟨_, x.cache, cache', reader', reached, shows.cache, ?_, later, hc', hi', kept⟩
    decide +kernel
  · rw [← Option.some.inj (served.symm.trans hi')] at waiting
    cases waiting

/-- A reader that cannot wait gets none, though the first token comes at the moment it asks. -/
theorem hasty_reader_misses_token : ∃ w w' cache' first, Reachable w ∧
    w.readers[0]? = some ⟨0, false, .coming w.now⟩ ∧ Later (w.attend 0) w' ∧
    w'.caches[0]? = some cache' ∧ cache'.publications.head? = some first ∧
    first.received ≤ w.now + cache'.config.maxWait ∧
    w'.readers[0]? = some ⟨0, false, .served w.now w.now none⟩ := by
  have reached := reachable_solo.later (.single (solo_expects false))
  have later := later_moves 20 ((solo.expect 0 false [Instant.start]).attend 0)
  have published : ((moves 20 ((solo.expect 0 false [Instant.start]).attend 0)).caches[0]?.bind
      (·.publications.head?)).map (·.received) = some Instant.start := by decide +kernel
  obtain ⟨first, there, received⟩ := Option.map_eq_some_iff.mp published
  obtain ⟨cache', hc', head⟩ := Option.bind_eq_some_iff.mp there
  have now : (solo.expect 0 false [Instant.start]).now = Instant.start := by decide +kernel
  refine ⟨_, _, cache', first, reached, by decide +kernel, later, hc', head, ?_, by decide +kernel⟩
  rw [received, now]
  exact Nat.le_add_right _ _

end World
end TokenKeeper
