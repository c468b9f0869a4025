import TokenKeeper.Proofs.Sharing.Operations
import TokenKeeper.Proofs.Sharing.Tandem
/-! The operations on one cache, in a world with many and in a world with this one only. They have
the same answers at the same times. -/
namespace TokenKeeper

namespace Operation

def ofFirst : Operation → Operation
  | read _ blocking => read 0 blocking
  | visit _ blocking delays => visit 0 blocking delays
  | forward _ headers => forward 0 headers
  | close _ => close 0
  | dropCache _ => dropCache 0
  | operation => operation

theorem ofFirst_asks (operation : Operation) : operation.ofFirst.asks = operation.asks := by
  cases operation <;> rfl

theorem ofFirst_cache? {operation : Operation} {c : CacheId} (hc : operation.cache? = some c) :
    operation.ofFirst.cache? = some 0 := by
  cases operation <;> first | rfl | cases hc

theorem ofFirst_reply (operation : Operation) (answers : List (Option AccessToken × Instant)) :
    operation.ofFirst.reply answers = operation.reply answers := by
  cases operation <;> rfl

end Operation

theorem Reader.next_ofFirst {cache cache' : Cache} (current : cache'.current = cache.current)
    (config : cache'.config = cache.config) (c : CacheId) (blocking : Bool) (now : Instant) :
    (⟨0, blocking, .coming now⟩ : Reader).next cache' now =
      ((⟨c, blocking, .coming now⟩ : Reader).next cache now).ofFirst := by
  unfold next
  rw [current, config]
  cases cache.current with
  | some issued => rfl
  | none =>
    dsimp only
    split_ifs <;> rfl

theorem Operation.ofFirst_readers {cache cache' : Cache} (current : cache'.current = cache.current)
    (config : cache'.config = cache.config) (operation : Operation) (now : Instant) :
    operation.ofFirst.readers cache' now = (operation.readers cache now).map Reader.ofFirst := by
  cases operation
  case read c blocking =>
    exact congrArg ([·]) (Reader.next_ofFirst current config c blocking now)
  case forward c headers =>
    exact congrArg ([·]) (Reader.next_ofFirst current config c false now)
  case visit c blocking delays =>
    unfold ofFirst readers
    rw [List.map_map]
    rfl
  all_goals rfl

namespace World
variable {c : CacheId} {w w' v v' : World} {x y : Chain}

theorem Hears.answers {old own : List Reader} (hears : w.Hears c old own) :
    w.answers old.length = own.map Reader.answer := by
  unfold World.answers
  rw [hears.readers, List.drop_left]

theorem Hears.allServed {old own : List Reader} (hears : w.Hears c old own) :
    w.allServed = own.all Reader.isServed := by
  unfold World.allServed
  rw [hears.readers, List.all_append, List.all_eq_true.mpr hears.served, Bool.true_and]

theorem all_ofFirst (own : List Reader) :
    (own.map Reader.ofFirst).all Reader.isServed = own.all Reader.isServed := by
  rw [List.all_map]
  rfl

theorem map_ofFirst (own : List Reader) :
    (own.map Reader.ofFirst).map Reader.answer = own.map Reader.answer := by
  rw [List.map_map]
  rfl

namespace Tandem
variable {start : Instant} {operation : Operation} {answer : Answer}

theorem both (h : Tandem c start w v x y) {f g : CacheId → Chain → Chain} (left : Becomes w w' f)
    (right : Becomes v v' g) (size : SameSize v v') {x' y' : Chain} (now : f c x = x')
    (now' : g 0 y = y') (steady : x'.Steady start) (steady' : y'.Steady start)
    (same : x'.Matches y') : Tandem c start w' v' x' y' := by
  subst now now'
  exact ⟨left.peaceful, h.lone.keep right.peaceful size, left.shows c x h.shows,
    right.shows 0 y h.only, steady, steady', same⟩

theorem left (h : Tandem c start w v x y) {f : CacheId → Chain → Chain} (left : Becomes w w' f)
    (still : f c x = x) : Tandem c start w' v x y :=
  h.both left (.refl h.lone.peaceful) (.refl v) still rfl h.steady h.steady' h.same

theorem letGo (h : Tandem c start w v x y) {operation' : Operation} {after : World}
    {f : Chain → Chain} (takes : w.Takes operation answer w') (still : w.waits operation = false)
    (still' : v.waits operation' = false) (done : w.operate operation = some (.done, after))
    (done' : v.operate operation' = some (.done, v'))
    (becomes : Becomes w after fun c' z => if c' = c then f z else z)
    (becomes' : Becomes v v' fun c' z => if c' = 0 then f z else z) (size : SameSize v v')
    (steady : (f x).Steady start) (steady' : (f y).Steady start)
    (same : (f x).Matches (f y)) :
    v.Takes operation' answer v' ∧ Tandem c start w' v' (f x) (f y) := by
  cases takes.unique (.atOnce still done)
  refine ⟨.atOnce still' done', ?_⟩
  exact h.both becomes becomes' size (if_pos rfl) (if_pos rfl) steady steady' same

theorem close (h : Tandem c start w v x y) (takes : w.Takes (.close c) answer w') :
    ∃ v', v'.readers = v.readers ∧ v.Takes (.close 0) answer v' ∧
      Tandem c start w' v' x.shut y.shut := by
  obtain ⟨after, closed, becomes, -⟩ :=
    h.peaceful.close (List.getElem?_eq_some_iff.mp h.shows.cache).1
  obtain ⟨v', closed', becomes', size, readers⟩ :=
    h.lone.peaceful.close (List.getElem?_eq_some_iff.mp h.only.cache).1
  refine ⟨v', readers, ?_⟩
  apply h.letGo takes rfl rfl _ _ becomes becomes' size h.steady.shut h.steady'.shut h.same.shut
  · rw [operate, closed]
    rfl
  · rw [operate, closed']
    rfl

theorem dropCache (h : Tandem c start w v x y) (takes : w.Takes (.dropCache c) answer w') :
    ∃ v', v'.readers = v.readers ∧ v.Takes (.dropCache 0) answer v' ∧
      Tandem c start w' v' x.gone y.gone := by
  obtain ⟨after, dropped, becomes, -⟩ :=
    h.peaceful.dropCache (List.getElem?_eq_some_iff.mp h.shows.cache).1
  obtain ⟨v', dropped', becomes', size, readers⟩ :=
    h.lone.peaceful.dropCache (List.getElem?_eq_some_iff.mp h.only.cache).1
  refine ⟨v', readers, ?_⟩
  apply h.letGo takes rfl rfl _ _ becomes becomes' size (h.steady.shut.drop rfl)
    (h.steady'.shut.drop rfl) h.same.shut.drop
  · rw [operate, dropped]
    rfl
  · rw [operate, dropped']
    rfl

theorem getter (h : Tandem c start w v x y) (served : w.allServed = true)
    (served' : v.allServed = true) (asks : operation.asks = true)
    (hc : operation.cache? = some c) (takes : w.Takes operation answer w') :
    ∃ v' x' y', v.Takes operation.ofFirst answer v' ∧ v'.allServed = true ∧
      Tandem c start w' v' x' y' := by
  have asks' : operation.ofFirst.asks = true := operation.ofFirst_asks.trans asks
  have comes := h.peaceful.asked asks hc h.shows
  have comes' := h.lone.peaceful.asked asks' (Operation.ofFirst_cache? hc) h.only
  rw [Operation.ofFirst_readers h.same.current h.same.config, h.now] at comes'
  have mine := operation.readers_cache hc x.cache w.now
  have suits := operation.readers_suits x
  rw [h.shows.now] at suits
  generalize operation.readers x.cache w.now = own at comes comes' mine suits
  have tandem : Tandem c start (w.visited operation) (v.visited operation.ofFirst) x y :=
    h.both comes.becomes comes'.becomes comes'.size rfl rfl h.steady h.steady' h.same
  have hears : (w.visited operation).Hears c w.readers own :=
    ⟨comes.readers, List.all_eq_true.mp served, mine⟩
  have hears' : (v.visited operation.ofFirst).Hears 0 v.readers (own.map Reader.ofFirst) := by
    refine ⟨comes'.readers, List.all_eq_true.mp served', fun reader member => ?_⟩
    obtain ⟨reader, -, rfl⟩ := List.mem_map.mp member
    rfl
  -- In both worlds the readers are served at once, or they are waited for until the same time.
  obtain ⟨after, replied, ends⟩ := takes.asked asks
  obtain ⟨after', x', y', own', ends', tandem', heard, heard', all_served⟩ : ∃ after' x' y' own',
      ((v.visited operation.ofFirst).allServed = true ∧ after' = v.visited operation.ofFirst ∨
        (v.visited operation.ofFirst).allServed = false ∧
          ∃ fuel, awaitFrom World.allServed none fuel (v.visited operation.ofFirst) = some after') ∧
        Tandem c start after after' x' y' ∧ after.Hears c w.readers own' ∧
          after'.Hears 0 v.readers (own'.map Reader.ofFirst) ∧
            own'.all Reader.isServed = true := by
    rw [hears.allServed] at ends
    rw [hears'.allServed, all_ofFirst]
    obtain ⟨all, rfl⟩ | ⟨some_left, fuel, waited⟩ := ends
    · exact ⟨_, x, y, own, .inl ⟨all, rfl⟩, tandem, hears, hears', all⟩
    · obtain ⟨fuel', after', x', y', own', waited', tandem', heard, heard', all⟩ :=
        tandem.serves hears hears' suits waited
      exact ⟨after', x', y', own', .inr ⟨some_left, fuel', waited'⟩, tandem', heard, heard',
        List.all_eq_true.mpr all⟩
  obtain ⟨rfl, rfl⟩ := Prod.mk.inj replied
  have answers : after'.answers v.readers.length = after.answers w.readers.length := by
    rw [heard.answers, heard'.answers, map_ofFirst]
  have replied' : v.replied operation.ofFirst after' =
      ((operation.reply (after.answers w.readers.length)).1,
        after'.notes (operation.reply (after.answers w.readers.length)).2) := by
    unfold World.replied
    rw [answers, operation.ofFirst_reply]
  have kinds := operation.reply_notices (after.answers w.readers.length)
  refine ⟨_, x', y', .of_asked asks' replied' ends', ?_, ?_⟩
  · rw [World.allServed, notes_readers]
    exact (heard'.allServed.trans (all_ofFirst _)).trans all_served
  · exact tandem'.both (tandem'.peaceful.notes kinds) (tandem'.lone.peaceful.notes kinds)
      (.notes _ _) rfl rfl tandem'.steady tandem'.steady' tandem'.same

theorem unasked (h : Tandem c start w v x y) (served' : v.allServed = true)
    (asks : operation.asks = false) (hc : operation.cache? = some c)
    (takes : w.Takes operation answer w') :
    ∃ v' x' y', v.Takes operation.ofFirst answer v' ∧ v'.allServed = true ∧
      Tandem c start w' v' x' y' := by
  have still {v' : World} (readers : v'.readers = v.readers) : v'.allServed = true := by
    rw [World.allServed, readers]
    exact served'
  cases operation <;> cases hc
  case read => cases asks
  case close =>
    obtain ⟨v', readers, takes', tandem⟩ := h.close takes
    exact ⟨v', _, _, takes', still readers, tandem⟩
  case dropCache =>
    obtain ⟨v', readers, takes', tandem⟩ := h.dropCache takes
    exact ⟨v', _, _, takes', still readers, tandem⟩
  case visit blocking delays =>
    obtain rfl : delays = [] := by simpa [Operation.asks] using asks
    cases takes with
    | serves asks' => cases asks'
    | atOnce _ operated =>
      cases operated
      exact ⟨v, x, y, .atOnce rfl rfl, served', h⟩
  case forward headers =>
    have authorized : headers.any Header.isAuthorization = true := by
      simpa [Operation.asks] using asks
    cases takes with
    | serves asks' =>
      rw [asks] at asks'
      cases asks'
    | atOnce _ operated =>
      rw [operate, forward, if_pos authorized] at operated
      cases operated
      refine ⟨v.note .carriesAuthorization, x, y, .atOnce ?_ ?_, still (note_readers _ _), ?_⟩
      · exact congrArg (· && !(v.visited (.forward 0 headers)).allServed) asks
      · rw [Operation.ofFirst, operate, forward, if_pos authorized]
        rfl
      · exact h.both (h.peaceful.note rfl) (h.lone.peaceful.note rfl) (.notes v [_]) rfl rfl
          h.steady h.steady' h.same

/-- Whatever is done to the cache, it is done alike where the cache is alone. -/
theorem own (h : Tandem c start w v x y) (served : w.allServed = true)
    (served' : v.allServed = true) (hc : operation.cache? = some c)
    (takes : w.Takes operation answer w') :
    ∃ v' x' y', v.Takes operation.ofFirst answer v' ∧ v'.allServed = true ∧
      Tandem c start w' v' x' y' := by
  cases asks : operation.asks with
  | true => exact h.getter served served' asks hc takes
  | false => exact h.unasked served' asks hc takes

theorem waits (h : Tandem c start w v x y) (served : v.allServed = true) (passes : Passes w w')
    (quiet : w'.move? = none) :
    ∃ v' x' y', v.Takes (.advance (w'.now - v.now)) .done v' ∧ v'.allServed = true ∧
      Tandem c start w' v' x' y' := by
  obtain ⟨fuel, v', waited, now⟩ := h.reaches passes quiet
  obtain ⟨passes', quiet'⟩ := awaitFrom_passes h.lone.peaceful.reachable waited
  obtain ⟨x', y', -, tandem⟩ := h.passes passes quiet passes' quiet' now
  have ahead : v.now ≤ w'.now := by
    rw [h.now]
    exact Later.now_le h.peaceful.reachable.sound passes.later
  have there : v.now + (w'.now - v.now) = w'.now := by
    unfold Instant at *
    omega
  rw [← there] at waited
  refine ⟨v', x', y', .passes waited, ?_, tandem⟩
  · rw [World.allServed, passes'.allServed h.lone.peaceful.reachable.sound served]
    exact served

end Tandem
end World
end TokenKeeper
