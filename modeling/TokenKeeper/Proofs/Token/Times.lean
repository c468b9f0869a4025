import TokenKeeper.Token.Issued
/-! The times of a token tell the same in two ways: by its age, held against lengths of time, and by
the instants at which it is due and expires, if the clock reaches them. As time goes by a token only
gets older, and no length of time grows too large to be told. -/
namespace TokenKeeper

def Span.Fits (d : Span) : Prop := d < Span.ofSecs (Nat.pow 2 64)

theorem Span.ofSecs_fits {n : Nat} (h : n < Nat.pow 2 64) : (ofSecs n).Fits :=
  Nat.mul_lt_mul_of_pos_right h (by decide)

namespace Instant
variable {s t : Instant} {d : Span}

theorem since_fits (h : t < limit) (s : Instant) : (since t s).Fits :=
  Nat.lt_of_le_of_lt (Nat.sub_le t s) h

theorem later?_eq_some_iff : s.later? d = some t ↔ s + d < limit ∧ s + d = t := by
  unfold later?
  split <;> simp [*]

theorem reached_iff (now : t < limit) (later : s ≤ t) (d : Span) :
    (∃ time, s.later? d = some time ∧ time ≤ t) ↔ d ≤ since t s := by
  have passed : d ≤ since t s ↔ s + d ≤ t := by
    rw [Nat.add_comm]
    exact Nat.le_sub_iff_add_le later
  rw [passed]
  constructor
  · rintro ⟨time, ends, reached⟩
    rwa [(later?_eq_some_iff.mp ends).2]
  · intro reached
    exact ⟨s + d, later?_eq_some_iff.mpr ⟨Nat.lt_of_le_of_lt reached now, rfl⟩, reached⟩

end Instant

theorem Config.issue_fits {config : Config} (h : config.minDelay.Fits) (token : AccessToken)
    (lifetime : UInt64) (now : Instant) :
    (config.issue token lifetime now).lifetime.Fits ∧
      (config.issue token lifetime now).refreshDelay.Fits := by
  have bound : lifetime.toNat < Nat.pow 2 64 := lifetime.toNat_lt
  have third : max (lifetime.toNat / 3) 1 < Nat.pow 2 64 :=
    Nat.max_lt.mpr ⟨Nat.lt_of_le_of_lt (Nat.div_le_self _ _) bound, by decide⟩
  exact ⟨Span.ofSecs_fits bound, Nat.max_lt.mpr ⟨Span.ofSecs_fits third, h⟩⟩

def Status.rank : Status → Nat
  | fresh => 0
  | stale => 1
  | expired => 2

namespace Issued
variable (issued : Issued) {s t : Instant}

theorem statusAt_expired_iff :
    issued.statusAt t = .expired ↔ issued.lifetime ≤ issued.age t := by
  unfold statusAt
  split
  next past => simp [past]
  next => split <;> simp [*]

theorem statusAt_stale_iff : issued.statusAt t = .stale ↔
    ¬issued.lifetime ≤ issued.age t ∧ issued.refreshDelay ≤ issued.age t := by
  unfold statusAt
  split
  next past => simp [past]
  next => split <;> simp [*]

theorem statusAt_fresh_iff : issued.statusAt t = .fresh ↔
    ¬issued.lifetime ≤ issued.age t ∧ ¬issued.refreshDelay ≤ issued.age t := by
  unfold statusAt
  split
  next past => simp [past]
  next => split <;> simp [*]

theorem age_mono (h : s ≤ t) : issued.age s ≤ issued.age t := Nat.sub_le_sub_right h _

theorem age_early (h : t ≤ issued.received) : issued.age t = 0 := Nat.sub_eq_zero_of_le h

theorem statusAt_mono (h : s ≤ t) : (issued.statusAt s).rank ≤ (issued.statusAt t).rank := by
  have older := issued.age_mono h
  cases was : issued.statusAt s with
  | fresh => exact Nat.zero_le _
  | stale =>
    have due := Nat.le_trans (issued.statusAt_stale_iff.mp was).2 older
    cases is : issued.statusAt t with
    | fresh => exact absurd due (issued.statusAt_fresh_iff.mp is).2
    | stale | expired => decide
  | expired =>
    have past := Nat.le_trans (issued.statusAt_expired_iff.mp was) older
    exact Nat.le_of_eq (congrArg Status.rank (issued.statusAt_expired_iff.mpr past).symm)

theorem untilExpired_mono (h : s ≤ t) : issued.untilExpired t ≤ issued.untilExpired s :=
  Nat.sub_le_sub_left (issued.age_mono h) _

theorem at_received (h : t < issued.received) :
    issued.statusAt t = issued.statusAt issued.received ∧
      issued.untilExpired t = issued.untilExpired issued.received := by
  have same : issued.age t = issued.age issued.received := by
    rw [issued.age_early (Nat.le_of_lt h), issued.age_early (Nat.le_refl _)]
  unfold statusAt untilExpired
  rw [same]
  exact ⟨rfl, rfl⟩

theorem statusAt_iff (now : t < Instant.limit) (received : issued.received ≤ t) :
    (issued.statusAt t = .expired ↔ ∃ time, issued.expiry = some time ∧ time ≤ t) ∧
      (issued.statusAt t = .stale ↔ (¬∃ time, issued.expiry = some time ∧ time ≤ t) ∧
        ∃ time, issued.refreshAt = some time ∧ time ≤ t) ∧
      (issued.statusAt t = .fresh ↔ (¬∃ time, issued.expiry = some time ∧ time ≤ t) ∧
        ¬∃ time, issued.refreshAt = some time ∧ time ≤ t) := by
  unfold expiry refreshAt
  rw [Instant.reached_iff now received, Instant.reached_iff now received]
  exact ⟨issued.statusAt_expired_iff, issued.statusAt_stale_iff, issued.statusAt_fresh_iff⟩

theorem untilExpired_eq_zero_iff : issued.untilExpired t = 0 ↔ issued.statusAt t = .expired :=
  Nat.sub_eq_zero_iff_le.trans issued.statusAt_expired_iff.symm

theorem untilExpired_eq {time : Instant} (received : issued.received ≤ t)
    (expires : issued.expiry = some time) : issued.untilExpired t = time - t := by
  obtain ⟨-, rfl⟩ := Instant.later?_eq_some_iff.mp expires
  exact (Nat.sub_sub_right _ received).trans (congrArg (· - t) (Nat.add_comm _ _))

end Issued

/-- The two ways to tell a token's times agree at every moment of the clock: what they say of it
only grows later, and what is left of it only shorter. All lengths of time fit, also those of
tokens that live beyond the clock, and no instant lies beyond it. -/
theorem token_times_cohere (issued : Issued) (lifetime : issued.lifetime.Fits) :
    (∀ t < Instant.limit, issued.received ≤ t →
      (issued.statusAt t = .expired ↔ ∃ time, issued.expiry = some time ∧ time ≤ t) ∧
      (issued.statusAt t = .stale ↔ (¬∃ time, issued.expiry = some time ∧ time ≤ t) ∧
        ∃ time, issued.refreshAt = some time ∧ time ≤ t) ∧
      (issued.statusAt t = .fresh ↔ (¬∃ time, issued.expiry = some time ∧ time ≤ t) ∧
        ¬∃ time, issued.refreshAt = some time ∧ time ≤ t) ∧
      ∀ time, issued.expiry = some time → t < time → issued.untilExpired t = time - t) ∧
    (∀ t < issued.received, issued.statusAt t = issued.statusAt issued.received ∧
      issued.untilExpired t = issued.untilExpired issued.received) ∧
    (∀ t, issued.untilExpired t = 0 ↔ issued.statusAt t = .expired) ∧
    (∀ s t, s ≤ t → (issued.statusAt s).rank ≤ (issued.statusAt t).rank ∧
      issued.untilExpired t ≤ issued.untilExpired s) ∧
    (∀ t < Instant.limit, (issued.age t).Fits ∧ (issued.untilExpired t).Fits) ∧
    (∀ time, issued.refreshAt = some time ∨ issued.expiry = some time → time < Instant.limit) ∧
    ∀ (config : Config) token (seconds : UInt64) now, config.minDelay.Fits →
      (config.issue token seconds now).lifetime = Span.ofSecs seconds.toNat ∧
        (config.issue token seconds now).lifetime.Fits ∧
        (config.issue token seconds now).refreshDelay.Fits := by
  refine ⟨fun t now received => ?_, fun t => issued.at_received,
    fun t => issued.untilExpired_eq_zero_iff,
    fun s t le => ⟨issued.statusAt_mono le, issued.untilExpired_mono le⟩, fun t now => ⟨?_, ?_⟩,
    fun time at_all => ?_, fun config token seconds now least => ?_⟩
  · obtain ⟨expired, stale, fresh⟩ := issued.statusAt_iff now received
    exact ⟨expired, stale, fresh, fun time expires _ => issued.untilExpired_eq received expires⟩
  · exact Instant.since_fits now _
  · exact Nat.lt_of_le_of_lt (Nat.sub_le _ _) lifetime
  · obtain due | past := at_all
    · exact (Instant.later?_eq_some_iff.mp due).2 ▸ (Instant.later?_eq_some_iff.mp due).1
    · exact (Instant.later?_eq_some_iff.mp past).2 ▸ (Instant.later?_eq_some_iff.mp past).1
  · exact ⟨rfl, config.issue_fits least token seconds now⟩

/-- A token of the longest lifetime never expires. -/
theorem token_times_cohere_beyond : ∃ issued : Issued,
    issued = ({} : Config).issue ⟨"abc123"⟩ 18446744073709551615 Instant.start ∧
      issued.lifetime.Fits ∧ issued.expiry = none ∧
      ∀ t < Instant.limit, issued.received ≤ t → issued.statusAt t ≠ .expired := by
  have fits : (({} : Config).issue ⟨"abc123"⟩ 18446744073709551615 Instant.start).lifetime.Fits :=
    Span.ofSecs_fits (by decide)
  have never :
      (({} : Config).issue ⟨"abc123"⟩ 18446744073709551615 Instant.start).expiry = none := by
    decide
  refine ⟨_, rfl, fits, never, fun t now received past => ?_⟩
  obtain ⟨time, expires, -⟩ := ((token_times_cohere _ fits).1 t now received).1.mp past
  rw [never] at expires
  cases expires

end TokenKeeper
