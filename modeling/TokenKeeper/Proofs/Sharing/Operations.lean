import TokenKeeper.Proofs.Sharing.Audience
import TokenKeeper.Proofs.Sharing.Opening
import TokenKeeper.Proofs.World.Runs
/-! What an operation comes to in a peaceful world: readers come, time passes, or one chain is let
go. Between operations everybody has been served. -/
namespace TokenKeeper

def Operation.readers (operation : Operation) (cache : Cache) (now : Instant) : List Reader :=
  match operation with
  | read c blocking => [(⟨c, blocking, .coming now⟩ : Reader).next cache now]
  | visit c blocking delays => delays.map fun delay => ⟨c, blocking, .coming (now + delay)⟩
  | forward c _ => [(⟨c, false, .coming now⟩ : Reader).next cache now]
  | _ => []

theorem Operation.readers_cache {operation : Operation} {c : CacheId}
    (hc : operation.cache? = some c) (cache : Cache) (now : Instant) :
    ∀ reader ∈ operation.readers cache now, reader.cache = c := by
  intro reader member
  cases operation <;> cases hc
  case read | forward =>
    rw [List.mem_singleton.mp member, Reader.next_cache]
  case visit =>
    obtain ⟨delay, -, rfl⟩ := List.mem_map.mp member
    rfl
  all_goals cases member

theorem Reader.next_suits (c : CacheId) (blocking : Bool) (x : Chain) :
    ((⟨c, blocking, .coming x.now⟩ : Reader).next x.cache x.now).Suits x := by
  intro asked deadline stage
  unfold next at stage
  cases current : x.cache.current with
  | some issued =>
    rw [current] at stage
    cases stage
  | none =>
    rw [current] at stage
    dsimp only at stage
    split at stage
    · cases stage
    · cases stage
      exact ⟨rfl, rfl, Nat.le_add_right _ _⟩

theorem Operation.readers_suits (operation : Operation) (x : Chain) :
    ∀ reader ∈ operation.readers x.cache x.now, reader.Suits x := by
  intro reader member
  cases operation
  case read c blocking =>
    rw [List.mem_singleton.mp member]
    exact Reader.next_suits c blocking x
  case forward c headers =>
    rw [List.mem_singleton.mp member]
    exact Reader.next_suits c false x
  case visit c blocking delays =>
    obtain ⟨delay, -, rfl⟩ := List.mem_map.mp member
    intro asked deadline stage
    cases stage
  all_goals cases member

theorem Operation.reply_notices (operation : Operation)
    (answers : List (Option AccessToken × Instant)) :
    ∀ notice ∈ (operation.reply answers).2, notice.isElapsed = false := by
  intro notice member
  cases operation
  case forward c headers =>
    unfold reply Header.attach at member
    dsimp only at member
    split at member
    · rw [List.mem_singleton.mp member]
      rfl
    · split at member
      · cases member
      · rw [List.mem_singleton.mp member]
        rfl
  all_goals cases member

theorem Operation.reply_unmade (operation : Operation)
    (answers : List (Option AccessToken × Instant)) (c : CacheId) :
    (operation.reply answers).1 ≠ .made c := by
  cases operation <;> exact nofun

namespace World
variable {w w' : World} {operation : Operation} {answer : Answer} {c : CacheId} {x : Chain}

@[simp] theorem notes_readers (w : World) (notices : List Notice) :
    (w.notes notices).readers = w.readers := by
  induction notices generalizing w with
  | nil => rfl
  | cons notice rest ih => exact (ih _).trans (note_readers w notice)

structure Comes (w w' : World) (own : List Reader) : Prop where
  becomes : Becomes w w' fun _ x => x
  size : SameSize w w'
  readers : w'.readers = w.readers ++ own

theorem Peaceful.comes (h : w.Peaceful) (shows : w.Shows c x) (blocking : Bool) :
    Comes w ((w.expect c blocking [w.now]).attend w.readers.length)
      [(⟨c, blocking, .coming w.now⟩ : Reader).next x.cache w.now] := by
  have hc := (List.getElem?_eq_some_iff.mp shows.cache).1
  have expected : Becomes w (w.expect c blocking [w.now]) fun _ x => x :=
    h.expect hc blocking (by simp)
  have hi : (w.expect c blocking [w.now]).readers[w.readers.length]? =
      some ⟨c, blocking, .coming w.now⟩ := List.getElem?_concat_length
  refine ⟨expected.trans (expected.peaceful.arrive hi rfl le_rfl), ⟨?_, ?_, ?_⟩, ?_⟩
  · rw [attend_pools]
    rfl
  · rw [attend_schedulers]
    rfl
  · rw [attend_caches]
    rfl
  · rw [attend_readers hi shows.cache]
    exact List.set_append_right _ _ le_rfl |>.trans (by simp; rfl)

theorem Peaceful.asked (h : w.Peaceful) (asks : operation.asks = true)
    (hc : operation.cache? = some c) (shows : w.Shows c x) :
    Comes w (w.visited operation) (operation.readers x.cache w.now) := by
  cases operation <;> cases hc
  case read blocking => exact h.comes shows blocking
  case forward headers => exact h.comes shows false
  case visit blocking delays =>
    have bound := (List.getElem?_eq_some_iff.mp shows.cache).1
    refine ⟨h.expect bound blocking fun time member => ?_, ⟨rfl, rfl, rfl⟩, ?_⟩
    · obtain ⟨delay, -, rfl⟩ := List.mem_map.mp member
      exact Nat.le_add_right _ _
    · refine congrArg (w.readers ++ ·) (List.map_map.trans ?_)
      rfl
  all_goals cases asks

/-- Between operations everybody has been served. -/
structure Orderly (w : World) : Prop where
  peaceful : w.Peaceful
  served : w.allServed = true
  named : w.Named

/-- What an operation comes to: something is done at once, a cache is opened, or time passes. -/
inductive Goes (w : World) (operation : Operation) (answer : Answer) (w' : World) : Prop where
  | atOnce {f : CacheId → Chain → Chain} (still : w.waits operation = false)
      (becomes : Becomes w w' f) (size : SameSize w w')
      (others : ∀ c x, operation.cache? ≠ some c → f c x = x)
      (unmade : ∀ c, answer ≠ .made c)
  | opens {config : Config} {issuer : Issuer} (same : operation = .openCache config issuer)
      (opens : w.openCache config issuer = (.ok w.caches.length, w'))
      (made : answer = .made w.caches.length)
  | waits {after : World} (waits : w.waits operation = true)
      (begins : Becomes w (w.visited operation) fun _ x => x)
      (size : SameSize w (w.visited operation))
      (passes : Passes (w.visited operation) after) (quiet : after.move? = none)
      (ends : Becomes after w' fun _ x => x) (size' : SameSize after w')
      (unmade : ∀ c, answer ≠ .made c)

theorem SameSize.notes (w : World) (notices : List Notice) : SameSize w (w.notes notices) := by
  induction notices generalizing w with
  | nil => exact .refl w
  | cons notice rest ih =>
    apply SameSize.trans _ (ih (w.note notice))
    exact ⟨by rw [note_pools], by rw [note_schedulers], by rw [note_caches]⟩

theorem Passes.allServed (passes : Passes w w') (h : w.Sound) (served : w.allServed = true) :
    w'.readers = w.readers := by
  apply List.ext_getElem?
  intro i
  cases hi : w.readers[i]? with
  | none =>
    rw [List.getElem?_eq_none_iff] at hi ⊢
    exact passes.readers_length.trans_le hi
  | some reader =>
    apply Later.reader_stays h passes.later hi
    exact List.all_eq_true.mp served reader (List.mem_of_getElem? hi)

theorem Takes.goes_asked (h : w.Orderly) (asks : operation.asks = true)
    (hc : operation.cache? = some c) (bound : c < w.caches.length)
    (takes : w.Takes operation answer w') : w.Goes operation answer w' ∧ w'.allServed = true := by
  obtain ⟨x, shows, -⟩ := h.peaceful.reachable.sound.shows (List.getElem?_eq_getElem bound)
  have comes := h.peaceful.asked asks hc shows
  have peaceful := comes.becomes.peaceful
  obtain ⟨after, replied, served⟩ := takes.asked asks
  obtain ⟨rfl, rfl⟩ := Prod.mk.inj replied
  have kinds := operation.reply_notices (after.answers w.readers.length)
  have unmade := operation.reply_unmade (after.answers w.readers.length)
  generalize operation.reply (after.answers w.readers.length) = reply at kinds unmade
  rw [allServed, notes_readers]
  obtain ⟨served, rfl⟩ | ⟨unserved, fuel, waited⟩ := served
  · refine ⟨.atOnce ?_ (comes.becomes.trans (peaceful.notes kinds)) ?_ (fun _ _ _ => rfl) unmade,
      served⟩
    · rw [w.waits_visited asks, served]
      rfl
    · exact comes.size.trans (.notes _ _)
  · obtain ⟨passes, quiet⟩ := awaitFrom_passes peaceful.reachable waited
    refine ⟨.waits ?_ comes.becomes comes.size passes quiet
      ((peaceful.passes passes).notes kinds) (.notes _ _) unmade, awaitFrom_stops waited⟩
    rw [w.waits_visited asks, unserved]
    rfl

theorem Allows.cache (allows : w.Allows operation) (asks : operation.asks = true) :
    ∃ c, operation.cache? = some c ∧ c < w.caches.length := by
  have within := allows.within
  cases operation <;> first | exact ⟨_, rfl, of_decide_eq_true within⟩ | cases asks

theorem Goes.letGo {f : Chain → Chain} (still : w.waits operation = false)
    (hc : operation.cache? = some c)
    (becomes : Becomes w w' fun c' x => if c' = c then f x else x) (size : SameSize w w') :
    w.Goes operation .done w' := by
  refine .atOnce still becomes size (fun c' x other => if_neg ?_) (by simp)
  rintro rfl
  exact other hc

theorem Orderly.goes_openCache (h : w.Orderly) {config : Config} {issuer : Issuer}
    (operated : w.operate (.openCache config issuer) = some (answer, w')) :
    w.Goes (.openCache config issuer) answer w' ∧ w'.allServed = true := by
  rw [operate] at operated
  cases opens : w.openCache config issuer with
  | mk result after =>
    rw [opens] at operated
    cases result with
    | error error =>
      cases operated
      rw [openCache_error opens]
      exact ⟨.atOnce rfl (.refl h.peaceful) (.refl w) (fun _ _ _ => rfl) (by simp), h.served⟩
    | ok c =>
      cases operated
      obtain ⟨rfl, p, on⟩ := h.peaceful.reachable.sound.opensOn opens
      refine ⟨.opens rfl opens rfl, ?_⟩
      rw [allServed, on.readers]
      exact h.served

theorem Orderly.goes (h : w.Orderly) (allows : w.Allows operation)
    (takes : w.Takes operation answer w') : w.Goes operation answer w' ∧ w'.allServed = true := by
  cases asks : operation.asks with
  | true =>
    obtain ⟨c, hc, bound⟩ := allows.cache asks
    exact takes.goes_asked h asks hc bound
  | false =>
    cases takes with
    | serves asks' =>
      rw [asks] at asks'
      cases asks'
    | passes waited =>
      obtain ⟨passes, quiet⟩ := awaitFrom_passes h.peaceful.reachable waited
      refine ⟨.waits rfl (.refl h.peaceful) (.refl w) passes quiet
        (.refl (h.peaceful.passes passes)) (.refl w') (by simp), ?_⟩
      rw [allServed, passes.allServed h.peaceful.reachable.sound h.served]
      exact h.served
    | atOnce still operated =>
      cases operation
      case read => cases asks
      case advance => cases still
      case openCache config issuer => exact h.goes_openCache operated
      case visit c blocking delays =>
        obtain rfl : delays = [] := by simpa [Operation.asks] using asks
        cases operated
        exact ⟨.atOnce rfl (.refl h.peaceful) (.refl w) (fun _ _ _ => rfl) (by simp), h.served⟩
      case forward c headers =>
        have authorized : headers.any Header.isAuthorization = true := by
          simpa [Operation.asks] using asks
        rw [operate, forward, if_pos authorized] at operated
        cases operated
        refine ⟨.atOnce still (h.peaceful.note rfl) (.notes w [_]) (fun _ _ _ => rfl) (by simp), ?_⟩
        rw [allServed, note_readers]
        exact h.served
      case close c =>
        obtain ⟨after, closed, becomes, size, readers⟩ :=
          h.peaceful.close (of_decide_eq_true allows.within)
        rw [operate, closed] at operated
        cases operated
        refine ⟨.letGo still rfl becomes size, ?_⟩
        rw [allServed, readers]
        exact h.served
      case dropCache c =>
        obtain ⟨after, dropped, becomes, size, readers⟩ :=
          h.peaceful.dropCache (of_decide_eq_true allows.within)
        rw [operate, dropped] at operated
        cases operated
        refine ⟨.letGo still rfl becomes size, ?_⟩
        rw [allServed, readers]
        exact h.served
      all_goals cases allows.within

theorem Orderly.takes (h : w.Orderly) (allows : w.Allows operation)
    (takes : w.Takes operation answer w') : w'.Orderly := by
  obtain ⟨goes, served⟩ := h.goes allows takes
  have sound := h.peaceful.reachable.sound
  cases goes with
  | atOnce _ becomes size =>
    exact ⟨becomes.peaceful, served, h.named.later sound becomes.later size.pools⟩
  | opens same opens =>
    rw [same] at allows
    refine ⟨(h.peaceful.openCache allows.gentle opens).peaceful, served, ?_⟩
    obtain ⟨-, p, on⟩ := sound.opensOn opens
    obtain ⟨opened, -, had, -, -, pools⟩ := on.pool
    intro pool member
    rw [pools, submit_pools] at member
    obtain ⟨q, hq⟩ := List.mem_iff_getElem?.mp member
    obtain ⟨before, hb, rfl⟩ := getElem?_modify_cases hq
    have namable := (h.named.poolFor had).2 before (List.mem_of_getElem? hb)
    split <;> exact namable
  | waits _ begins size passes _ ends size' =>
    have between := begins.peaceful.sameSize_passes passes
    refine ⟨ends.peaceful, served, h.named.later sound ?_ ?_⟩
    · exact (begins.later.trans passes.later).trans ends.later
    · exact ((size.trans between).trans size').pools

end World
end TokenKeeper
