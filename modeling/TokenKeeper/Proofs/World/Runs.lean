import TokenKeeper.Proofs.Chain.Paced
import TokenKeeper.Proofs.World.Awaiting
import TokenKeeper.Proofs.World.Operation
/-! Runs of operations on caches, each of which takes as many steps as it needs. A run is determined
by its operations. -/
namespace TokenKeeper

namespace Operation

def cache? : Operation → Option CacheId
  | read c _ | visit c _ _ | forward c _ | close c | dropCache c => some c
  | _ => none

def asks : Operation → Bool
  | read .. => true
  | visit _ _ delays => !delays.isEmpty
  | forward _ headers => !headers.any Header.isAuthorization
  | _ => false

def isWithin (count : Nat) : Operation → Bool
  | openCache .. | advance _ => true
  | operation => operation.cache?.any (· < count)

def IsGentle : Operation → Prop
  | openCache _ issuer => ∀ k, (issuer k).IsGentle
  | _ => True

def reply (answers : List (Option AccessToken × Instant)) : Operation → Answer × List Notice
  | read .. => (.got (answers.head?.bind (·.1)), [])
  | visit .. => (.served answers, [])
  | forward _ headers =>
    let attached := Header.attach (answers.head?.bind (·.1)) headers
    (.sent attached.1, attached.2)
  | _ => (.done, [])

end Operation

namespace World
variable {w w' : World} {operation : Operation} {answer : Answer}

def allServed (w : World) : Bool := w.readers.all Reader.isServed

def visited (w : World) : Operation → World
  | .read c blocking => (w.expect c blocking [w.now]).attend w.readers.length
  | .visit c blocking delays => w.expect c blocking (delays.map (w.now + ·))
  | .forward c _ => (w.expect c false [w.now]).attend w.readers.length
  | _ => w

def replied (w : World) (operation : Operation) (after : World) : Answer × World :=
  let reply := operation.reply (after.answers w.readers.length)
  (reply.1, after.notes reply.2)

def waits (w : World) : Operation → Bool
  | .advance _ => true
  | operation => operation.asks && !(w.visited operation).allServed

/-- The operation returns with this answer, after some number of steps. -/
inductive Takes (w : World) : Operation → Answer → World → Prop where
  | atOnce {operation : Operation} {answer : Answer} {w' : World}
      (still : w.waits operation = false) (h : w.operate operation = some (answer, w')) :
      Takes w operation answer w'
  | passes {length : Span} {fuel : Nat} {w' : World}
      (h : awaitFrom (fun _ => false) (some (w.now + length)) fuel w = some w') :
      Takes w (.advance length) .done w'
  | serves {operation : Operation} {fuel : Nat} {after : World} (asks : operation.asks = true)
      (unserved : (w.visited operation).allServed = false)
      (h : awaitFrom allServed none fuel (w.visited operation) = some after) :
      Takes w operation (w.replied operation after).1 (w.replied operation after).2

theorem unserved_visit (w : World) (c : CacheId) (blocking : Bool) {delays : List Span}
    (some_come : delays ≠ []) : (w.visited (.visit c blocking delays)).allServed = false := by
  obtain ⟨first, rest, rfl⟩ := List.exists_cons_of_ne_nil some_come
  simp [visited, expect, allServed, Reader.isServed]

theorem read_visited (w : World) (c : CacheId) (blocking : Bool) : w.read c blocking =
    (if (w.visited (.read c blocking)).allServed then some (w.visited (.read c blocking))
      else (w.visited (.read c blocking)).serveAll).map fun after =>
        ((after.answers w.readers.length).head?.bind (·.1), after) := by
  by_cases served : (w.visited (.read c blocking)).allServed = true
  · rw [if_pos served]
    exact if_pos served
  · rw [if_neg served, Option.map_eq_bind]
    exact if_neg served

theorem serveAll_eq (w : World) : w.serveAll = awaitFrom allServed none patience w := rfl

theorem waits_visited (w : World) (asks : operation.asks = true) :
    w.waits operation = !(w.visited operation).allServed := by
  cases operation <;> first | (simp [waits, asks]; done) | cases asks

theorem operate_visited (w : World) (asks : operation.asks = true) :
    w.operate operation =
      (if (w.visited operation).allServed then some (w.visited operation)
        else (w.visited operation).serveAll).map (w.replied operation) := by
  cases operation with
  | read c blocking =>
    rw [operate, read_visited, Option.map_map]
    rfl
  | visit c blocking delays =>
    have some_come : delays ≠ [] := by simpa [Operation.asks] using asks
    rw [w.unserved_visit c blocking some_come, operate, visit, if_neg (by simpa using some_come),
      visited]
    cases (w.expect c blocking (delays.map (w.now + ·))).serveAll <;> rfl
  | forward c headers =>
    have bare : ¬headers.any Header.isAuthorization = true := by simpa [Operation.asks] using asks
    rw [operate, forward, if_neg bare, read_visited]
    have came : w.visited (.read c false) = w.visited (.forward c headers) := rfl
    rw [came]
    split
    · rfl
    · cases (w.visited (.forward c headers)).serveAll <;> rfl
  | _ => cases asks

theorem Takes.of_operate (h : w.operate operation = some (answer, w')) :
    w.Takes operation answer w' := by
  cases waits : w.waits operation with
  | false => exact .atOnce waits h
  | true =>
    cases asks : operation.asks with
    | true =>
      have unserved : (w.visited operation).allServed = false := by
        simpa [w.waits_visited asks] using waits
      rw [w.operate_visited asks, unserved, if_neg Bool.false_ne_true, serveAll_eq] at h
      obtain ⟨after, waited, replied⟩ := Option.map_eq_some_iff.mp h
      have took := Takes.serves asks unserved waited
      rwa [replied] at took
    | false =>
      cases operation with
      | advance length =>
        rw [operate, advance, await] at h
        obtain ⟨after, waited, same⟩ := Option.map_eq_some_iff.mp h
        cases same
        exact .passes waited
      | _ => simp [World.waits, asks] at waits

theorem Takes.asked (asks : operation.asks = true) (takes : w.Takes operation answer w') :
    ∃ after, w.replied operation after = (answer, w') ∧
      ((w.visited operation).allServed = true ∧ after = w.visited operation ∨
        (w.visited operation).allServed = false ∧
          ∃ fuel, awaitFrom allServed none fuel (w.visited operation) = some after) := by
  cases takes with
  | atOnce still h =>
    have served : (w.visited operation).allServed = true := by
      simpa [w.waits_visited asks] using still
    rw [w.operate_visited asks, if_pos served] at h
    exact ⟨_, Option.some.inj h, .inl ⟨served, rfl⟩⟩
  | passes => cases asks
  | serves _ unserved h => exact ⟨_, rfl, .inr ⟨unserved, _, h⟩⟩

theorem Takes.of_asked {after : World} (asks : operation.asks = true)
    (replied : w.replied operation after = (answer, w'))
    (served : (w.visited operation).allServed = true ∧ after = w.visited operation ∨
      (w.visited operation).allServed = false ∧
        ∃ fuel, awaitFrom allServed none fuel (w.visited operation) = some after) :
    w.Takes operation answer w' := by
  obtain ⟨served, rfl⟩ | ⟨unserved, fuel, waited⟩ := served
  · apply Takes.atOnce
    · rw [w.waits_visited asks, served]
      rfl
    · rw [w.operate_visited asks, if_pos served, Option.map_some, replied]
  · have took := Takes.serves asks unserved waited
    rwa [replied] at took

/-- An operation returns in one way only. -/
theorem Takes.unique {answer' : Answer} {w'' : World} (takes : w.Takes operation answer w')
    (takes' : w.Takes operation answer' w'') : (answer, w') = (answer', w'') := by
  cases asks : operation.asks with
  | true =>
    obtain ⟨after, replied, served⟩ := takes.asked asks
    obtain ⟨after', replied', served'⟩ := takes'.asked asks
    suffices after = after' by rw [← replied, ← replied', this]
    obtain ⟨all, rfl⟩ | ⟨some_left, fuel, waited⟩ := served <;>
      obtain ⟨all', rfl⟩ | ⟨some_left', fuel', waited'⟩ := served'
    · rfl
    · rw [all] at some_left'
      cases some_left'
    · rw [all'] at some_left
      cases some_left
    · exact awaitFrom_unique waited waited'
  | false =>
    cases takes with
    | atOnce still h =>
      cases takes' with
      | atOnce _ h' => exact Option.some.inj (h.symm.trans h')
      | passes => cases still
      | serves asks' =>
        rw [asks] at asks'
        cases asks'
    | passes h =>
      cases takes' with
      | atOnce still => cases still
      | passes h' => rw [awaitFrom_unique h h']
      | serves asks' => cases asks'
    | serves asks' =>
      rw [asks] at asks'
      cases asks'

/-- What may be done to caches whose issuers never hold a worker. The registry stays. -/
structure Allows (w : World) (operation : Operation) : Prop where
  within : operation.isWithin w.caches.length = true
  gentle : operation.IsGentle

structure Event where
  before : World
  operation : Operation
  answer : Answer
  after : World

inductive Runs (first : World) : List Event → World → Prop where
  | nil : Runs first [] first
  | snoc {events : List Event} {before after : World} {operation : Operation} {answer : Answer}
      (runs : Runs first events before) (allows : before.Allows operation)
      (takes : before.Takes operation answer after) :
      Runs first (events ++ [⟨before, operation, answer, after⟩]) after

def operateAll (w : World) : List Operation → Option (List Event × World)
  | [] => some ([], w)
  | operation :: rest => do
    let (answer, after) ← w.operate operation
    let (events, last) ← after.operateAll rest
    some (⟨w, operation, answer, after⟩ :: events, last)

namespace Runs
variable {first : World} {events events' : List Event}

theorem append (runs : Runs first events w) (runs' : Runs w events' w') :
    Runs first (events ++ events') w' := by
  induction runs' with
  | nil => rwa [List.append_nil]
  | snoc _ allows takes ih =>
    rw [← List.append_assoc]
    exact ih.snoc allows takes

theorem cons {operation : Operation} {answer : Answer} (allows : first.Allows operation)
    (takes : first.Takes operation answer w) (runs : Runs w events w') :
    Runs first (⟨first, operation, answer, w⟩ :: events) w' :=
  (Runs.nil.snoc allows takes).append runs

theorem of_operateAll {operations : List Operation}
    (h : first.operateAll operations = some (events, w))
    (within : ∀ event ∈ events, event.operation.isWithin event.before.caches.length = true)
    (gentle : ∀ operation ∈ operations, operation.IsGentle) :
    Runs first events w ∧ events.map (·.operation) = operations := by
  induction operations generalizing first events with
  | nil =>
    cases h
    exact ⟨.nil, rfl⟩
  | cons operation rest ih =>
    obtain ⟨⟨answer, after⟩, operated, others⟩ := Option.bind_eq_some_iff.mp h
    obtain ⟨⟨later, last⟩, followed, same⟩ := Option.bind_eq_some_iff.mp others
    cases same
    obtain ⟨runs, operations⟩ := ih followed
      (fun event member => within event (.tail _ member))
      (fun operation member => gentle operation (.tail _ member))
    have allows : first.Allows operation :=
      ⟨within _ List.mem_cons_self, gentle _ List.mem_cons_self⟩
    exact ⟨.cons allows (.of_operate operated) runs, congrArg (operation :: ·) operations⟩

theorem unique (runs : Runs first events w) (runs' : Runs first events' w')
    (same : events.map (·.operation) = events'.map (·.operation)) : events = events' ∧ w = w' := by
  induction runs generalizing events' w' with
  | nil =>
    cases runs' with
    | nil => exact ⟨rfl, rfl⟩
    | snoc => simp at same
  | snoc _ _ takes ih =>
    cases runs' with
    | nil => simp at same
    | snoc runs' _ takes' =>
      simp only [List.map_append, List.map_cons, List.map_nil] at same
      obtain ⟨before, last⟩ := List.append_inj' same rfl
      obtain ⟨rfl, rfl⟩ := ih runs' before
      cases last
      cases takes.unique takes'
      exact ⟨rfl, rfl⟩

end Runs
end World
end TokenKeeper
