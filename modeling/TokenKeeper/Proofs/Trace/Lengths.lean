import TokenKeeper.Proofs.Succession.OneByOne
import TokenKeeper.Proofs.Trace.Acts
/-! Every notice of a length of time goes back to one step of the run, which has done what the
notice says. Its field holds the milliseconds of that length as far as they fit. -/
namespace TokenKeeper.World
variable {first w : World}

/-- The step that gave a notice: what had been told before it was told earlier, and the notice is
told after it. -/
theorem Acts.entry (h : Reachable first) (blank : first.timings = []) (acts : Acts first w)
    {later earlier : List (Instant × Notice)} {entry : Instant × Notice}
    (told : w.timings = later ++ entry :: earlier) :
    ∃ before after, Acts first before ∧ Act before after ∧ Acts after w ∧ before.now = entry.1 ∧
      Bears before after entry.2 ∧ before.timings <:+ earlier ∧
        entry :: earlier <:+ after.timings := by
  induction acts generalizing later with
  | refl =>
    rw [blank] at told
    exact absurd told.symm (List.append_ne_nil_of_right_ne_nil _ (List.cons_ne_nil _ _))
  | tail acts act ih =>
    rename_i w w'
    have before {later : List (Instant × Notice)} (told : w.timings = later ++ entry :: earlier) :
        ∃ before after, Acts first before ∧ Act before after ∧ Acts after w' ∧
          before.now = entry.1 ∧ Bears before after entry.2 ∧ before.timings <:+ earlier ∧
            entry :: earlier <:+ after.timings := by
      obtain ⟨before, after, acts', act', rest, others⟩ := ih told
      exact ⟨before, after, acts', act', rest.tail act, others⟩
    obtain ⟨new, more, each⟩ := act.bears (h.later (Acts.later acts)).sound
    -- the entry is one of the new ones, unless all of those came later
    obtain ⟨between, -, told'⟩ | ⟨between, new_eq, rest⟩ :=
      List.append_eq_append_iff.mp (more.symm.trans told)
    · exact before told'
    · cases between with
      | nil =>
        have told' : w.timings = [] ++ entry :: earlier := rest.symm
        exact before told'
      | cons latest between =>
        obtain ⟨rfl, rfl⟩ := List.cons.inj rest
        obtain ⟨now, bears⟩ := each entry (by rw [new_eq]; simp)
        exact ⟨w, w', acts, act, .refl, now.symm, bears, List.suffix_append _ _,
          ⟨later, told.symm⟩⟩

/-- Whatever is configured, issued and asked for: a notice of a length of time tells of the delay
that a scheduler has been handed, also where a run hands it over, or of how long the readers of a
cache may wait. It is given by the step that does so, and its field holds the whole milliseconds
of that length, cut to 64 bits; so it holds them just if they fit. -/
theorem logged_lengths {now : Instant} {verbosity : Verbosity}
    (acts : Acts { now := now, verbosity := verbosity } w) :
    (∀ later time notice earlier, w.timings = later ++ (time, notice) :: earlier →
      (∃ name length, notice.length? = some (name, length) ∧
        notice.fields.lookup name = some (.number (length.millis % UInt64.size)) ∧
        (notice.fields.lookup name = some (.number length.millis) ↔
          length < Span.ofMillis UInt64.size)) ∧
      ∃ before after, Acts { now := now, verbosity := verbosity } before ∧ Act before after ∧
        Acts after w ∧ before.now = time ∧ Bears before after notice ∧
          before.timings <:+ earlier ∧ (time, notice) :: earlier <:+ after.timings) ∧
    ∀ operation answer w', w.Suits operation → w.operate operation = some (answer, w') →
      Acts w w' := by
  have reachable : Reachable w := ⟨now, verbosity, Acts.later acts⟩
  refine ⟨fun later time notice earlier told => ⟨?_, ?_⟩, fun operation answer w' suits operated =>
    operate_acts reachable suits operated⟩
  · have tells : (time, notice) ∈ w.timings := by rw [told]; simp
    obtain ⟨⟨name, length⟩, is⟩ := Option.isSome_iff_exists.mp (List.mem_filter.mp tells).2
    refine ⟨name, length, is, Notice.lookup_length is, ?_⟩
    rw [Notice.lookup_length is, Option.some.injEq, Value.number.injEq, Span.millis_fits_iff]
  · exact Acts.entry ⟨now, verbosity, .refl⟩ rfl acts told

def loading (lifetime : UInt64) : World :=
  (({ verbosity := some .trace } : World).openCache {} (.fixed ⟨⟨"token"⟩, lifetime⟩)).2

theorem loading_opens (lifetime : UInt64) : ({ verbosity := some .trace } : World).openCache {}
    (.fixed ⟨⟨"token"⟩, lifetime⟩) = (.ok 0, loading lifetime) := rfl

theorem acts_loading (lifetime : UInt64) (n : Nat) :
    Acts { verbosity := some .trace } (moves n (loading lifetime)) :=
  (openCache_acts (loading_opens lifetime)).trans (Passes.acts (passes_moves n _))

theorem logged_lengths_loading : ∃ before after,
    Acts { verbosity := some .trace } before ∧ Act before after ∧ before.now = Instant.start ∧
      Bears before after (.nextLoad (Span.ofSecs 10)) ∧
        (Notice.nextLoad (Span.ofSecs 10)).fields.lookup "delay_ms" = some (.number 10000) := by
  have told : (moves 12 (loading 30)).timings =
      [] ++ (Instant.start, .nextLoad (Span.ofSecs 10)) ::
        [(Instant.start, .scheduled "OIDC_CLIENT-daemon-thread-" (Span.ofSecs 10))] := by
    decide +kernel
  obtain ⟨⟨name, length, is, field, -⟩, before, after, acts, act, -, now, bears, -⟩ :=
    (logged_lengths (acts_loading 30 12)).1 _ _ _ _ told
  cases is
  exact ⟨before, after, acts, act, now, bears, field⟩

/-- A third of the longest lifetime takes more milliseconds than fit, so the field holds fewer than
the delay that the next load waits for. -/
theorem logged_length_wraps : ∃ w length, Acts { verbosity := some .trace } w ∧
    (w.caches[0]?.bind (·.current)).map (·.refreshDelay) = some length ∧
      (Instant.start, .nextLoad length) ∈ w.timings ∧ length.millis = 6148914691236517205000 ∧
        (Notice.nextLoad length).fields.lookup "delay_ms" =
          some (.number 6148914691236516872) := by
  refine ⟨moves 12 (loading 18446744073709551615), Span.ofSecs 6148914691236517205,
    acts_loading _ _, ?_, ?_, ?_, ?_⟩
  all_goals decide +kernel

end TokenKeeper.World
