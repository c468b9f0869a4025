import TokenKeeper.Header
import TokenKeeper.Proofs.Chain.Published
import TokenKeeper.Proofs.Operations
/-! What readers see of the publications. Whoever is served later sees as many of them or more, so
no reader ever gets an older token than another one got before. -/
namespace TokenKeeper

/-- The cache shows what the last good reply brought that has been taken up, if there was any. -/
structure Cache.Folded (cache : Cache) : Prop where
  current : cache.current = cache.publications.getLast?
  ready : cache.ready = true ↔ cache.publications ≠ []
  source : ∀ issued ∈ cache.publications,
    ∃ (k : Nat) (call : Attempt) (time : Instant) (resource : Resource),
      cache.calls[k]? = some call ∧ call.ended = some (time, .resource resource) ∧
      call.concluded = some issued.received ∧ (cache.issuer k).reply = .resource resource ∧
      resource.token = some issued.token ∧ issued.token.text ≠ "" ∧
      issued.lifetime = Span.ofSecs resource.lifetime.toNat ∧
      issued.refreshDelay = cache.config.refreshDelay resource.lifetime

/-- After it was `before`, the cache shows that and what calls have brought that were taken up
since. -/
structure Cache.ShowsMore (before after : Cache) : Prop where
  folded : after.Folded
  kept : before.publications <+: after.publications
  taken : ∀ issued ∈ after.publications.drop before.publications.length,
    ∃ (k : Nat) (call : Attempt), after.calls[k]? = some call ∧
      call.issued? after.config = some issued ∧
      ∀ call', before.calls[k]? = some call' → call'.concluded = none

theorem Chain.Published.folded {exact : Prop} {start : Instant} {x : Chain} (h : x.Published)
    (sound : x.Sound exact start) : x.cache.Folded where
  current := h.current
  ready := by rw [h.ready, h.current, List.getLast?_isSome]
  source := by
    intro issued hi
    obtain ⟨call, member, issues⟩ := List.mem_filterMap.mp hi
    obtain ⟨k, hk⟩ := List.mem_iff_getElem?.mp member
    obtain ⟨time, reply, received, token, lifetime, he, hc, usable, rfl⟩ :=
      Attempt.issued?_some issues
    obtain ⟨resource, rfl, there, text, rfl⟩ := Reply.token_ok usable
    have script := ((sound.timed.regular hk).ended time _ he).2
    exact ⟨k, call, time, resource, hk, he, hc, script.symm, there, text, rfl, rfl⟩

namespace Cache.Folded
variable {cache : Cache}

theorem current_token (h : cache.Folded) :
    cache.current.map (·.token) = cache.tokenAfter cache.publications.length := by
  rw [h.current, tokenAfter, List.take_length]

/-- A header without a token is that of an empty text, which is never published. -/
theorem bearer_iff (h : cache.Folded) (n : Nat) :
    Header.bearer (cache.tokenAfter n) = "Bearer " ↔ cache.tokenAfter n = none := by
  have opening : Header.scheme ++ " " = "Bearer " := by decide +kernel
  rw [Header.bearer, opening, String.append_eq_left_iff]
  cases token : cache.tokenAfter n with
  | none => simp
  | some token =>
    obtain ⟨issued, last, rfl⟩ := Option.map_eq_some_iff.mp token
    have member := List.mem_of_mem_take (List.mem_of_getLast? last)
    obtain ⟨_, _, _, _, -, -, -, -, -, text, -⟩ := h.source issued member
    simpa using text

end Cache.Folded

namespace World
variable {w w' : World} {c : CacheId} {i : Nat} {reader : Reader} {asked time : Instant}
  {token : Option AccessToken}

theorem Shows.published {x : Chain} (shows : w.Shows c x) (h : Reachable w) : x.Published := by
  obtain ⟨first, fresh, later⟩ := shows.history h
  exact (fresh.published.later fresh.sound (later.mono fun _ => id)).1

theorem Reachable.known (h : Reachable w) {cache : Cache} (hc : w.caches[c]? = some cache) :
    ∃ x start, w.Shows c x ∧ x.cache = cache ∧ x.Sound False start ∧ x.Published := by
  obtain ⟨x, shows, same⟩ := h.sound.shows hc
  obtain ⟨start, sound⟩ := shows.sound h
  exact ⟨x, start, shows, same, sound, shows.published h⟩

theorem Reachable.folded (h : Reachable w) {cache : Cache} (hc : w.caches[c]? = some cache) :
    cache.Folded := by
  obtain ⟨x, start, shows, rfl, sound, published⟩ := h.known hc
  exact published.folded sound

theorem Reachable.extends (h : Reachable w) (later : Later w w') {cache : Cache}
    (hc : w.caches[c]? = some cache) :
    ∃ cache', w'.caches[c]? = some cache' ∧ cache'.config = cache.config ∧
      cache.publications <+: cache'.publications := by
  obtain ⟨x, start, shows, rfl, sound, published⟩ := h.known hc
  obtain ⟨x', shows', later'⟩ := shows.later h.sound later
  obtain ⟨-, -, new, added, -⟩ := published.later sound (Chain.Later.mono later' fun _ => id)
  exact ⟨x'.cache, shows'.cache, (Chain.Later.follows later').config, new, added.symm⟩

theorem Reachable.served (h : Reachable w) (later : Later w w') (hi : w'.readers[i]? = some reader)
    (stage : reader.stage = .served asked time token) :
    w.readers[i]? = some reader ∨ ∃ cache' n, w'.caches[reader.cache]? = some cache' ∧
      n ≤ cache'.publications.length ∧ token = cache'.tokenAfter n ∧
      ∀ cache, w.caches[reader.cache]? = some cache → cache.publications.length ≤ n := by
  induction later generalizing reader with
  | refl => exact .inl hi
  | @tail middle last before step ih =>
    have reached := h.later before
    rcases (step.happens reached.sound).reader_cases reached.sound hi with
      old | ⟨reader', cache, hi', hc, due, rfl, rfl⟩ | ⟨-, _, coming, -⟩
    · refine (ih old stage).imp_right fun ⟨cache, n, hc, le, same, known⟩ => ?_
      obtain ⟨cache', hc', -, more⟩ := reached.extends (.single step) hc
      exact ⟨cache', n, hc', le.trans more.length_le,
        same.trans (Cache.tokenAfter_prefix more le).symm, known⟩
    · right
      obtain ⟨-, same⟩ := Reader.next_served (Reader.isDue_unserved due) stage
      rw [Reader.next_cache, attend_caches]
      refine ⟨cache, cache.publications.length, hc, le_rfl,
        same.trans (reached.folded hc).current_token, fun first hf => ?_⟩
      obtain ⟨cache', hc', -, more⟩ := h.extends before hf
      obtain rfl := Option.some.inj (hc.symm.trans hc')
      exact more.length_le
    · rw [coming] at stage
      cases stage

/-- What comes between two moments is what calls have brought that were taken up meanwhile. -/
theorem Reachable.showsMore (h : Reachable w) (later : Later w w') {cache : Cache}
    (hc : w.caches[c]? = some cache) :
    ∃ cache', w'.caches[c]? = some cache' ∧ cache.ShowsMore cache' := by
  obtain ⟨x, start, shows, rfl, sound, published⟩ := h.known hc
  obtain ⟨x', shows', later'⟩ := shows.later h.sound later
  have run : Chain.Later (¬False) x x' := Chain.Later.mono later' fun _ => id
  obtain ⟨published', -, new, added, -⟩ := published.later sound run
  refine ⟨x'.cache, shows'.cache, published'.folded (sound.later run), ⟨new, added.symm⟩, ?_⟩
  intro issued young
  rw [added, List.drop_left] at young
  have member : issued ∈ x'.cache.publications := added ▸ List.mem_append_right _ young
  obtain ⟨call, made, issues⟩ := List.mem_filterMap.mp member
  obtain ⟨k, hk⟩ := List.mem_iff_getElem?.mp made
  refine ⟨k, call, hk, issues, fun call' before => ?_⟩
  by_contra taken
  -- The same call would have published the token before.
  have same := run.calls_stay sound before (Option.isSome_iff_ne_none.mpr taken)
  obtain rfl := Option.some.inj (hk.symm.trans same)
  have apart := published'.apart
  rw [added, List.pairwise_append] at apart
  have old : issued ∈ x.cache.publications := by
    rw [(Chain.Later.follows later').config] at issues
    exact List.mem_filterMap.mpr ⟨call, List.mem_of_getElem? before, issues⟩
  exact lt_irrefl _ (apart.2.2 issued old issued young)

/-- Closing the cache waits, for the end of a foreground pool. -/
def CloseWaits (w : World) (c : CacheId) : Prop :=
  ∃ cache scheduler p pool, w.caches[c]? = some cache ∧
    w.schedulers[cache.scheduler]? = some scheduler ∧ scheduler.pool = some p ∧
    (w.shutdown none cache.scheduler).1.pools[p]? = some pool ∧ pool.worker.closing = true ∧
    pool.identity.background = false

theorem close_caches (closed : w.close c = some w') (soon : ¬w.CloseWaits c) :
    w'.caches = w.caches := by
  unfold close at closed
  cases hc : w.caches[c]? with
  | none =>
    rw [hc] at closed
    exact Option.some.inj closed ▸ rfl
  | some cache =>
    simp only [hc] at closed
    obtain ⟨⟨done, after⟩, retired, rest⟩ := Option.bind_eq_some_iff.mp closed
    have same : after.caches = w.caches := by
      cases hs : w.schedulers[cache.scheduler]? with
      | none =>
        unfold retire at retired
        simp only [hs, Option.bind_none, Option.some.injEq, Prod.mk.injEq] at retired
        exact retired.2 ▸ w.shutdown_caches cache.scheduler
      | some scheduler =>
        obtain rfl | ⟨p, pool, on, hp, ends⟩ := retire_waits hs retired
        · exact w.shutdown_caches cache.scheduler
        · exact absurd ⟨cache, scheduler, p, pool, hc, hs, on, hp, ends⟩ soon
    cases rest
    dsimp only
    split
    · exact (after.note_caches _).trans same
    · exact same

/-- A cache shows the last good token of its issuer, which shutting down does not touch. From then
on publications are only added, also while a cache is closed, and each reader sees no fewer of them
than any reader served before. -/
theorem tokens_never_go_back (h : Reachable w) {cache : Cache} (hc : w.caches[c]? = some cache) :
    cache.Folded ∧ (∀ s, (w.shutdown none s).1.caches = w.caches) ∧
      (∀ c' w₁, w.close c' = some w₁ → (¬w.CloseWaits c' → w₁.caches = w.caches) ∧
        ∃ cache₁, w₁.caches[c]? = some cache₁ ∧ cache.ShowsMore cache₁) ∧
      ∀ w', Later w w' → ∃ cache', w'.caches[c]? = some cache' ∧
        cache.publications <+: cache'.publications ∧ (cache.ready = true → cache'.ready = true) ∧
        ∀ (i : Nat) reader asked time token, w'.readers[i]? = some reader → reader.cache = c →
          reader.stage = .served asked time token →
            (Header.bearer token = "Bearer " ↔ token = none) ∧
            ∃ n, n ≤ cache'.publications.length ∧ token = cache'.tokenAfter n ∧
              (w.readers[i]? = some reader → n ≤ cache.publications.length) ∧
              (w.readers[i]? ≠ some reader → cache.publications.length ≤ n) := by
  refine ⟨h.folded hc, w.shutdown_caches, fun c' w₁ closed => ?_, fun w' later => ?_⟩
  · refine ⟨close_caches closed, ?_⟩
    cases hc' : w.caches[c']? with
    | some cache' => exact h.showsMore (close_later h hc' closed).1 hc
    | none =>
      unfold close at closed
      rw [hc'] at closed
      cases closed
      exact h.showsMore .refl hc
  obtain ⟨cache', hc', -, more⟩ := h.extends later hc
  have folded := (h.later later).folded hc'
  refine ⟨cache', hc', more, fun ready => ?_, fun i reader asked time token hi there stage => ?_⟩
  · obtain ⟨issued, hi⟩ := List.exists_mem_of_ne_nil _ ((h.folded hc).ready.mp ready)
    exact folded.ready.mpr (List.ne_nil_of_mem (more.subset hi))
  · subst there
    suffices seen : ∃ n, n ≤ cache'.publications.length ∧ token = cache'.tokenAfter n ∧
        (w.readers[i]? = some reader → n ≤ cache.publications.length) ∧
        (w.readers[i]? ≠ some reader → cache.publications.length ≤ n) by
      obtain ⟨n, le, rfl, known⟩ := seen
      exact ⟨folded.bearer_iff n, n, le, rfl, known⟩
    -- Who was served before saw what there was then; who was not sees what there is now or later.
    by_cases before : w.readers[i]? = some reader
    · obtain ⟨now, verbosity, run⟩ := h
      have nobody : Reachable { now := now, verbosity := verbosity } := ⟨now, verbosity, .refl⟩
      rcases nobody.served run before stage with none_there | ⟨first, n, hf, le, rfl, -⟩
      · simp at none_there
      · obtain rfl := Option.some.inj (hc.symm.trans hf)
        exact ⟨n, le.trans more.length_le, (Cache.tokenAfter_prefix more le).symm, fun _ => le,
          fun new => absurd before new⟩
    · rcases h.served later hi stage with old | ⟨last, n, hl, le, same, known⟩
      · exact absurd old before
      · obtain rfl := Option.some.inj (hc'.symm.trans hl)
        exact ⟨n, le, same, fun old => absurd old before, fun _ => known cache hc⟩

def renewal : Issuer := fun k =>
  ⟨[], .resource ⟨some ⟨if k = 0 then "first" else "other"⟩, 30⟩⟩

def renewing : World := (({} : World).openCache { maxWait := 0 } renewal).2

theorem reachable_renewing : Reachable renewing :=
  reachable_new.later (.single (.openCache
    (show ({} : World).openCache { maxWait := 0 } renewal = (.ok 0, renewing) from rfl)))

/-- One reader comes before the token is refreshed, and one after that. -/
theorem tokens_never_go_back_renewing : ∃ w w' cache', Reachable w ∧ Later w w' ∧
    w'.caches[0]? = some cache' ∧
    w.readers[0]? = some ⟨0, true, .served Instant.start Instant.start (some ⟨"first"⟩)⟩ ∧
    w'.readers[1]? = some ⟨0, true, .served (Instant.start + Span.ofSecs 10)
      (Instant.start + Span.ofSecs 10) (some ⟨"other"⟩)⟩ ∧
    (∃ n, n ≤ 1 ∧ some ⟨"first"⟩ = cache'.tokenAfter n) ∧
    ∃ n, 1 ≤ n ∧ some ⟨"other"⟩ = cache'.tokenAfter n := by
  let next := Instant.start + Span.ofSecs 10
  let w := moves 20 (renewing.expect 0 true [Instant.start])
  let w' := moves 20 ((w.onTo next).expect 0 true [next])
  have comes : Step renewing (renewing.expect 0 true [Instant.start]) :=
    .expect true (by decide +kernel) (by decide +kernel)
  have reached : Reachable w := reachable_renewing.later (.head comes (later_moves 20 _))
  have comes' : Step (w.onTo next) ((w.onTo next).expect 0 true [next]) :=
    .expect true (by decide +kernel) (by decide +kernel)
  have later : Later w w' :=
    ((passes_onTo (by decide +kernel)).later.tail comes').trans (later_moves 20 _)
  have first : w.readers[0]? =
      some ⟨0, true, .served Instant.start Instant.start (some ⟨"first"⟩)⟩ := by decide +kernel
  have first' : w'.readers[0]? =
      some ⟨0, true, .served Instant.start Instant.start (some ⟨"first"⟩)⟩ := by decide +kernel
  have other : w'.readers[1]? = some ⟨0, true, .served next next (some ⟨"other"⟩)⟩ := by
    decide +kernel
  have alone : w.readers[1]? = none := by decide +kernel
  have one : w.caches[0]?.map (·.publications.length) = some 1 := by decide +kernel
  obtain ⟨cache, hc, one⟩ := Option.map_eq_some_iff.mp one
  obtain ⟨-, -, -, goes⟩ := tokens_never_go_back reached hc
  obtain ⟨cache', hc', -, -, readers⟩ := goes w' later
  obtain ⟨-, n, -, seen, before, -⟩ := readers 0 _ _ _ _ first' rfl rfl
  obtain ⟨-, m, -, seen', -, after⟩ := readers 1 _ _ _ _ other rfl rfl
  exact ⟨w, w', cache', reached, later, hc', first, other, ⟨n, one ▸ before first, seen⟩,
    m, one ▸ after (by rw [alone]; nofun), seen'⟩

end World
end TokenKeeper
