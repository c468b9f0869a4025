import TokenKeeper.Proofs.Sharing.History
/-! Two chains that have the same past. Whatever else is on their workers, they have the same past
again when both rest at the same time. -/
namespace TokenKeeper

def Task.starts (dropped : Bool) : Task → Bool
  | begin _ => !dropped
  | fetch .. => true
  | _ => false

theorem Task.Rests.starts {task : Task} {now : Instant} (rests : task.Rests now) (dropped : Bool) :
    task.starts dropped = false := by
  obtain ⟨_, -, resting | ⟨_, waits⟩⟩ := rests
  · cases task <;> first | rfl | cases resting
  · cases task <;> first | rfl | cases waits

namespace Chain
variable {start : Instant} {x x' y y' : Chain}

theorem card_starts (task : Task) (dropped : Bool) :
    (({task} : Multiset Task).filter (·.starts dropped = true)).card =
      (task.starts dropped).toNat := by
  cases starts : task.starts dropped <;> simp [Multiset.filter_singleton, starts]

/-- How many calls there will be if no further loads are asked for. -/
def committed (x : Chain) (dropped : Bool) : Nat :=
  x.cache.attempts.length + (x.live.filter (·.starts dropped = true)).card

theorem AtRest.committed (rest : x.AtRest) (dropped : Bool) :
    x.committed dropped = x.cache.attempts.length := by
  have none_starts : x.live.filter (·.starts dropped = true) = 0 := by
    rw [Multiset.filter_eq_nil]
    intro task member
    simp [(rest task member).starts dropped]
  rw [Chain.committed, none_starts, Multiset.card_zero, Nat.add_zero]

namespace Move

theorem dropped (move : Move x x') : x'.cache.dropped = x.cache.dropped := by
  cases move with
  | tick => rfl
  | turn live turn => exact turn.dropped

theorem isShutDown (move : Move x x') : x'.scheduler.isShutDown = x.scheduler.isShutDown := by
  cases move with
  | tick => rfl
  | turn live turn => exact turn.isShutDown

/-- After a shutdown nothing but what was there leads to a call. -/
theorem committed (move : Move x x') (off : x.scheduler.isShutDown = true) :
    x'.committed x.cache.dropped = x.committed x.cache.dropped := by
  cases move with
  | tick => rfl
  | @turn task added rest scheduler cache live turn =>
    unfold Chain.committed
    rw [live, Multiset.filter_add, Multiset.filter_add, Multiset.card_add, Multiset.card_add]
    generalize (rest.filter (·.starts x.cache.dropped = true)).card = others
    rw [card_starts]
    cases turn with
    | enter begins kept | enterDropped begins kept =>
      cases begins with
      | atOnce => simp only [card_starts]; simp [Task.starts, kept]
      | waited _ on => cases off.symm.trans on
    | abandon waits =>
      have waiting : task.starts x.cache.dropped = false := by
        cases task <;> first | rfl | cases waits
      simp [waiting]
    | wait _ on | conclude on =>
      rw [off] at on
      cases on
    | call =>
      rw [card_starts, Cache.beginCall]
      simp only [Task.starts, List.length_cons, Bool.toNat_true, Bool.toNat_false]
      omega
    | pause | resume => rw [card_starts]; rfl
    | endCall => rw [card_starts, Cache.endCall, Cache.onLatest_length]; rfl
    | concludeLast =>
      rw [Multiset.filter_zero, Cache.conclude_length]
      rfl

end Move

namespace Moves

theorem dropped (moves : Moves x x') : x'.cache.dropped = x.cache.dropped := by
  induction moves with
  | refl => rfl
  | tail _ move ih => exact move.dropped.trans ih

theorem isShutDown (moves : Moves x x') : x'.scheduler.isShutDown = x.scheduler.isShutDown := by
  induction moves with
  | refl => rfl
  | tail _ move ih => exact move.isShutDown.trans ih

theorem committed (moves : Moves x x') (off : x.scheduler.isShutDown = true) :
    x'.committed x.cache.dropped = x.committed x.cache.dropped := by
  induction moves with
  | refl => rfl
  | tail before move ih =>
    rw [← ih, ← Moves.dropped before]
    exact move.committed ((Moves.isShutDown before).trans off)

end Moves

/-- The chains have the same past, and after a shutdown the same calls to come. -/
structure Matches (x y : Chain) : Prop where
  now : y.now = x.now
  config : y.cache.config = x.cache.config
  issuer : y.cache.issuer = x.cache.issuer
  attempts : y.cache.attempts = x.cache.attempts
  current : y.cache.current = x.cache.current
  ready : y.cache.ready = x.cache.ready
  dropped : y.cache.dropped = x.cache.dropped
  isShutDown : y.scheduler.isShutDown = x.scheduler.isShutDown
  committed : ∀ dropped, y.committed dropped = x.committed dropped

namespace Matches

theorem symm (h : Matches x y) : Matches y x where
  now := h.now.symm
  config := h.config.symm
  issuer := h.issuer.symm
  attempts := h.attempts.symm
  current := h.current.symm
  ready := h.ready.symm
  dropped := h.dropped.symm
  isShutDown := h.isShutDown.symm
  committed dropped := (h.committed dropped).symm

theorem publications (h : Matches x y) : y.cache.publications = x.cache.publications :=
  Cache.publications_congr h.attempts h.config

theorem shut (h : Matches x y) : Matches { x with scheduler := x.scheduler.letGo }
    { y with scheduler := y.scheduler.letGo } :=
  { h with isShutDown := rfl, committed := h.committed }

theorem drop (h : Matches x y) : Matches { x with cache := { x.cache with dropped := true } }
    { y with cache := { y.cache with dropped := true } } :=
  { h with dropped := rfl, committed := h.committed }

theorem fresh (fresh : x.Fresh) (fresh' : y.Fresh) (now : y.now = x.now)
    (config : y.cache.config = x.cache.config) (issuer : y.cache.issuer = x.cache.issuer) :
    Matches x y := by
  have one {z : Chain} (fresh : z.Fresh) (dropped : Bool) :
      z.committed dropped = if dropped then 0 else 1 := by
    obtain ⟨submission, live⟩ := fresh.live
    rw [Chain.committed, fresh.attempts, live, card_starts]
    cases dropped <;> rfl
  constructor
  · exact now
  · exact config
  · exact issuer
  · rw [fresh.attempts, fresh'.attempts]
  · rw [fresh.current, fresh'.current]
  · rw [fresh.ready, fresh'.ready]
  · rw [fresh.dropped, fresh'.dropped]
  · rw [fresh.running, fresh'.running]
  · intro dropped
    rw [one fresh, one fresh']

section Moving
variable (h : Matches x y) (steady : x.Steady start) (steady' : y.Steady start)
  (moves : Moves x x') (moves' : Moves y y')

include h steady steady' moves moves' in
theorem bound (rest : x'.AtRest) (le : y'.now ≤ x'.now) :
    y'.cache.attempts.length ≤ x'.cache.attempts.length := by
  cases off : x.scheduler.isShutDown with
  | true =>
    have same := Moves.committed moves off
    have same' := Moves.committed moves' (h.isShutDown.trans off)
    rw [rest.committed] at same
    rw [h.dropped, h.committed, ← same, Chain.committed] at same'
    omega
  | false =>
    by_contra more
    rw [Nat.not_le] at more
    have began := (steady'.moves moves').callAt_le_now more
    have ahead := (steady.moves moves).now_lt_callAt rest ((Moves.isShutDown moves).trans off)
    have follows := Chain.Later.follows (Moves.later moves)
    have follows' := Chain.Later.follows (Moves.later moves')
    rw [follows'.config, follows'.issuer, h.config, h.issuer, ← follows.config,
      ← follows.issuer] at began
    exact absurd (began.trans le) ahead.not_ge

include h steady steady' moves moves' in
/-- Chains with the same past have the same past when they rest. -/
theorem later (now : y'.now = x'.now) (rest : x'.AtRest) (rest' : y'.AtRest) : Matches x' y' := by
  have count : y'.cache.attempts.length = x'.cache.attempts.length := by
    apply le_antisymm
    · exact h.bound steady steady' moves moves' rest now.le
    · exact h.symm.bound steady' steady moves' moves rest' now.ge
  have follows := Chain.Later.follows (Moves.later moves)
  have follows' := Chain.Later.follows (Moves.later moves')
  have config : y'.cache.config = x'.cache.config := by
    rw [follows'.config, h.config, follows.config]
  have issuer : y'.cache.issuer = x'.cache.issuer := by
    rw [follows'.issuer, h.issuer, follows.issuer]
  have attempts : y'.cache.attempts = x'.cache.attempts := by
    apply List.reverse_injective
    have here := (steady.moves moves).history rest
    have there := (steady'.moves moves').history rest'
    rw [now, config, issuer, count, ← here] at there
    exact there
  have published := (steady.moves moves).published
  have published' := (steady'.moves moves').published
  have current : y'.cache.current = x'.cache.current := by
    rw [published.current, published'.current, Cache.publications_congr attempts config]
  refine ⟨now, config, issuer, attempts, current, ?_, ?_, ?_, ?_⟩
  · rw [published.ready, published'.ready, current]
  · rw [Moves.dropped moves, Moves.dropped moves', h.dropped]
  · rw [Moves.isShutDown moves, Moves.isShutDown moves', h.isShutDown]
  · intro dropped
    rw [rest.committed, rest'.committed, count]

end Moving
end Matches

/-- From a chain at rest no token comes before time has gone by. -/
theorem AtRest.publications (rest : x.AtRest) (steady : x.Steady start) (moves : Moves x x') :
    ∃ new, x'.cache.publications = x.cache.publications ++ new ∧
      ∀ issued ∈ new, x.now < issued.received := by
  suffices h : ∃ new, x'.cache.publications = x.cache.publications ++ new ∧
      (∀ issued ∈ new, x.now < issued.received) ∧ x.now ≤ x'.now ∧
        (x'.now = x.now → x'.AtRest) by
    obtain ⟨new, publications, later, -⟩ := h
    exact ⟨new, publications, later⟩
  induction moves with
  | refl => exact ⟨[], by simp, by simp, le_rfl, fun _ => rest⟩
  | @tail middle last before move ih =>
    obtain ⟨new, publications, later, le, still⟩ := ih
    have steady' := steady.moves before
    cases move with
    | @tick t onward due =>
      refine ⟨new, publications, later, le.trans onward, ?_⟩
      intro now task member
      obtain ⟨due, hd, ahead, -⟩ := due task member
      change t = x.now at now
      exact ⟨due, by rw [now]; exact le.trans_lt ahead, .inl hd⟩
    | @turn task added others scheduler cache live turn =>
      have member : task ∈ middle.live := by simp [live]
      obtain rfl := steady'.sound.no_rest live
      rw [add_zero]
      obtain now | past := le.eq_or_lt
      · -- Nothing has gone on yet, and nothing of what rests goes on.
        obtain ⟨rests, rfl⟩ := turn.rests (still now.symm task member)
        exact ⟨new, publications, later, le, fun _ => rests⟩
      · cases (turn.publishes (steady'.sound.stands task member)).1 with
        | nothing same =>
          exact ⟨new, same.trans publications, later, le, fun now => absurd now past.ne'⟩
        | @token issued same _ _ received =>
          refine ⟨new ++ [issued], ?_, ?_, le, fun now => absurd now past.ne'⟩
          · rw [same, publications, List.append_assoc]
          · intro other member
            obtain old | young := List.mem_append.mp member
            · exact later other old
            · rw [List.mem_singleton.mp young, received]
              exact past

end Chain
end TokenKeeper
