import TokenKeeper.Proofs.Sharing.Audience
import TokenKeeper.Proofs.Sharing.Lone
import TokenKeeper.Proofs.World.Runs
/-! A world with many caches beside a world with one of them only. While nobody does anything from
outside the one cache fares in both worlds alike, and so do its readers. -/
namespace TokenKeeper

def Reader.ofFirst (reader : Reader) : Reader := { reader with cache := 0 }

namespace World

structure Hears (w : World) (c : CacheId) (old own : List Reader) : Prop where
  readers : w.readers = old ++ own
  served : ∀ reader ∈ old, reader.isServed = true
  mine : ∀ reader ∈ own, reader.cache = c

/-- The cache `c` of the one world and the only cache of the other have the same past. -/
structure Tandem (c : CacheId) (start : Instant) (w v : World) (x y : Chain) : Prop where
  peaceful : w.Peaceful
  lone : v.Lone
  shows : w.Shows c x
  only : v.Shows 0 y
  steady : x.Steady start
  steady' : y.Steady start
  same : x.Matches y

namespace Tandem
variable {c : CacheId} {start : Instant} {w w' v v' : World} {x y : Chain}

theorem now (h : Tandem c start w v x y) : v.now = w.now := by
  rw [← h.shows.now, ← h.only.now, h.same.now]

/-- Both worlds go on until they are quiet at the same time. -/
theorem passes (h : Tandem c start w v x y) (passes : Passes w w') (quiet : w'.move? = none)
    (passes' : Passes v v') (quiet' : v'.move? = none) (now : v'.now = w'.now) :
    ∃ x' y', x.Moves x' ∧ Tandem c start w' v' x' y' := by
  have peaceful := h.peaceful.passes passes
  have lone := h.lone.passes passes'
  obtain ⟨x', shows, moves⟩ := h.peaceful.shows_passes h.shows passes
  obtain ⟨y', only, moves'⟩ := h.lone.peaceful.shows_passes h.only passes'
  refine ⟨x', y', moves, peaceful, lone, shows, only, h.steady.moves moves,
    h.steady'.moves moves', ?_⟩
  apply h.same.later h.steady h.steady' moves moves'
  · rw [shows.now, only.now, now]
  · exact peaceful.atRest (move?_none quiet).1 shows
  · exact lone.peaceful.atRest (move?_none quiet').1 only

/-- The world with one cache gets wherever the other does. -/
theorem reaches (h : Tandem c start w v x y) (passes : Passes w w') (quiet : w'.move? = none) :
    ∃ fuel v', awaitFrom (fun _ => false) (some w'.now) fuel v = some v' ∧ v'.now = w'.now := by
  obtain ⟨x', shows, moves⟩ := h.peaceful.shows_passes h.shows passes
  have rest := (h.peaceful.passes passes).atRest (move?_none quiet).1 shows
  apply h.lone.settles (n := x'.cache.attempts.length)
  · rw [h.now]
    exact Later.now_le h.peaceful.reachable.sound passes.later
  · intro v' passes' le
    obtain ⟨y', only, moves'⟩ := h.lone.peaceful.shows_passes h.only passes'
    rw [(h.lone.passes passes').callCount only.cache]
    apply h.same.bound h.steady h.steady' moves moves' rest
    rw [only.now, shows.now]
    exact le

section Readers
variable {old old' own : List Reader} (hears : w.Hears c old own)
  (hears' : v.Hears 0 old' (own.map Reader.ofFirst)) (suits : ∀ reader ∈ own, reader.Suits x)

include hears hears' suits in
theorem readers (h : Tandem c start w v x y) (passes : Passes w w') (quiet : w'.move? = none)
    (passes' : Passes v v') (quiet' : v'.move? = none) (now : v'.now = w'.now) :
    ∃ x' y' own', x.Moves x' ∧ Tandem c start w' v' x' y' ∧ w'.Hears c old own' ∧
      v'.Hears 0 old' (own'.map Reader.ofFirst) := by
  obtain ⟨x', y', moves, tandem⟩ := h.passes passes quiet passes' quiet' now
  have told := h.peaceful.foretold h.shows h.steady hears.readers hears.served hears.mine suits
    passes quiet tandem.shows
  have suits' : ∀ reader ∈ own.map Reader.ofFirst, reader.Suits y := by
    intro reader member asked deadline stage
    obtain ⟨before, old, rfl⟩ := List.mem_map.mp member
    rw [h.same.current, h.same.config, h.same.now]
    exact suits before old asked deadline stage
  have told' := h.lone.peaceful.foretold h.only h.steady' hears'.readers hears'.served hears'.mine
    suits' passes' quiet' tandem.only
  refine ⟨x', y', _, moves, tandem, ⟨told, hears.served, ?_⟩, ⟨?_, hears'.served, ?_⟩⟩
  · intro reader member
    obtain ⟨before, old, rfl⟩ := List.mem_map.mp member
    exact hears.mine before old
  · rw [told', now, List.map_map, List.map_map]
    congr 2
    funext reader
    exact congrArg (fun stage => { reader.ofFirst with stage := stage })
      (Reader.foretold_congr tandem.same.config tandem.same.publications reader w'.now)
  · intro reader member
    obtain ⟨reader, -, rfl⟩ := List.mem_map.mp member
    rfl

include hears hears' suits in
theorem serves (h : Tandem c start w v x y) {fuel : Nat}
    (waited : awaitFrom allServed none fuel w = some w') :
    ∃ fuel' v' x' y' own', awaitFrom allServed none fuel' v = some v' ∧
      Tandem c start w' v' x' y' ∧ w'.Hears c old own' ∧
      v'.Hears 0 old' (own'.map Reader.ofFirst) ∧ ∀ reader ∈ own', reader.isServed = true := by
  obtain ⟨passes, quiet⟩ := awaitFrom_passes h.peaceful.reachable waited
  obtain ⟨fuel', v', limited, now⟩ := h.reaches passes quiet
  obtain ⟨passes', quiet'⟩ := awaitFrom_passes h.lone.peaceful.reachable limited
  obtain ⟨x', y', own', -, tandem, after, after'⟩ :=
    h.readers hears hears' suits passes quiet passes' quiet' now
  have all_served : ∀ reader ∈ own', reader.isServed = true := by
    have stops := awaitFrom_stops waited
    rw [allServed, after.readers, List.all_append, Bool.and_eq_true, List.all_eq_true,
      List.all_eq_true] at stops
    exact stops.2
  refine ⟨fuel', v', x', y', own', ?_, tandem, after, after', all_served⟩
  apply awaitFrom_unlimited h.lone.peaceful.reachable limited (fun _ _ => rfl)
  · -- If they were all served before, then so they would be in the other world by that time.
    intro middle' between' still' before
    by_contra served
    rw [Bool.not_eq_false] at served
    have from_here : w.now ≤ middle'.now := by
      rw [← h.now]
      exact Later.now_le h.lone.peaceful.reachable.sound between'.later
    obtain ⟨middle, between, still, le, next, unserved⟩ :=
      awaitFrom_interior h.peaceful.reachable waited from_here (before.trans_eq rfl)
    have pass : Pass middle { middle with now := middle'.now } :=
      .tick still le fun time first => (next time first).le
    obtain ⟨_, _, others, -, -, there, there'⟩ := h.readers hears hears' suits
      (between.tail pass) (quiet_until still next) between' still' rfl
    rw [allServed, there'.readers, List.all_append, Bool.and_eq_true, List.all_map] at served
    have readers : middle.readers = old ++ others := there.readers
    rw [allServed, readers, List.all_append, List.all_eq_true.mpr there.served,
      Bool.true_and] at unserved
    have same : others.all (Reader.isServed ∘ Reader.ofFirst) = others.all Reader.isServed := rfl
    rw [same, unserved] at served
    cases served.2
  · rw [allServed, after'.readers, List.all_append, Bool.and_eq_true, List.all_eq_true,
      List.all_map]
    exact ⟨after'.served, List.all_eq_true.mpr all_served⟩

end Readers
end Tandem
end World
end TokenKeeper
