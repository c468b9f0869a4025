import TokenKeeper.Grant.Exchange
import TokenKeeper.Proofs.Token.ReadBack
/-! What comes of an exchange, told by what the transport brings back: first whether there is an
answer, then whether its body comes to an end, then what its status reports, and only then what its
body says. A log has one error for each exchange that fails. -/
namespace TokenKeeper.Exchange
open Text

def Delivery.MayHaveBody : Delivery → Prop
  | refused | closed => True
  | cut status _ | whole status _ => isFinal status = true ∧ isBodiless status = false

theorem isError_iff (status : Nat) : isError status = true ↔ 400 ≤ status ∧ status < 600 := by
  rw [isError, Bool.and_eq_true, decide_eq_true_eq, decide_eq_true_eq]

theorem mayHaveBody_of_isError {status : Nat} (h : isError status = true) (body : List UInt8) :
    (Delivery.whole status body).MayHaveBody := by
  rw [isError_iff] at h
  simp only [Delivery.MayHaveBody, isFinal, isBodiless, Bool.or_eq_true, Bool.and_eq_true,
    Bool.or_eq_false_iff, decide_eq_true_eq, decide_eq_false_iff_not]
  omega

theorem Delivery.received_eq {delivery : Delivery} (h : delivery.MayHaveBody) :
    delivery.received = delivery := by
  cases delivery with
  | refused => rfl
  | closed => rfl
  | cut => simp [received, h.1, h.2]
  | whole => simp [received, h.1, h.2]

namespace Answer
variable {answer : Answer}

/-- Neither reading of the body gets past its end. -/
theorem resource_of_cut (h : answer.ended = false) : answer.resource = .error .notRead := by
  have octets : answer.octets = .error .notRead := by
    rw [Answer.octets, h]
    rfl
  have text : answer.text = .error .notRead := by
    rw [Answer.text, octets]
    rfl
  rw [resource, octets, text]
  split <;> rfl

theorem resource_of_error (h : answer.ended = true) (error : isError answer.status = true) :
    answer.resource =
      .error (.refusal answer.status (String.ofList (Utf8.decodeLossy answer.body))) := by
  rw [resource, if_pos error, Answer.text, Answer.octets, if_pos h]
  rfl

theorem resource_of_other (h : answer.ended = true) (other : isError answer.status = false) :
    answer.resource = (Resource.ofJson answer.body).mapError .unreadable := by
  rw [resource, other, Answer.octets, if_pos h]
  rfl

end Answer

section Deliveries
variable {status : Nat} {body : List UInt8}

theorem outcome_cut (h : (Delivery.cut status body).MayHaveBody) :
    outcome (.cut status body) = .error .notRead := by
  rw [outcome, Delivery.answer, Delivery.received_eq h]
  exact Answer.resource_of_cut rfl

theorem outcome_whole (h : (Delivery.whole status body).MayHaveBody) :
    outcome (.whole status body) = (⟨status, body, true⟩ : Answer).resource := by
  rw [outcome, Delivery.answer, Delivery.received_eq h]
  rfl

theorem outcome_error (error : isError status = true) :
    outcome (.whole status body) =
      .error (.refusal status (String.ofList (Utf8.decodeLossy body))) := by
  rw [outcome_whole (mayHaveBody_of_isError error body), Answer.resource_of_error rfl error]

theorem outcome_other (h : (Delivery.whole status body).MayHaveBody)
    (other : isError status = false) :
    outcome (.whole status body) = (Resource.ofJson body).mapError .unreadable := by
  rw [outcome_whole h, Answer.resource_of_other rfl other]

end Deliveries

/-- What is made of a delivery, one rule for each way it may go. -/
inductive Comes : Delivery → Except Failure Resource → Prop where
  | refused : Comes .refused (.error .notSent)
  | closed : Comes .closed (.error .notSent)
  | cut (status : Nat) (body : List UInt8) : Comes (.cut status body) (.error .notRead)
  | refusal {status : Nat} (error : 400 ≤ status ∧ status < 600) (body : List UInt8) :
    Comes (.whole status body)
      (.error (.refusal status (String.ofList (Utf8.decodeLossy body))))
  | unreadable {status : Nat} (other : ¬(400 ≤ status ∧ status < 600)) {body : List UInt8}
    {fault : Json.Fault} (read : Resource.ofJson body = .error fault) :
    Comes (.whole status body) (.error (.unreadable fault))
  | resource {status : Nat} (other : ¬(400 ≤ status ∧ status < 600)) {body : List UInt8}
    {resource : Resource} (read : Resource.ofJson body = .ok resource) :
    Comes (.whole status body) (.ok resource)

theorem comes_outcome {delivery : Delivery} (h : delivery.MayHaveBody) :
    Comes delivery (outcome delivery) := by
  cases delivery with
  | refused => exact .refused
  | closed => exact .closed
  | cut status body =>
    rw [outcome_cut h]
    exact .cut status body
  | whole status body =>
    cases error : isError status with
    | true =>
      rw [outcome_error error]
      exact .refusal ((isError_iff status).mp error) body
    | false =>
      have other : ¬(400 ≤ status ∧ status < 600) := by rw [← isError_iff, error]; exact nofun
      rw [outcome_other h error]
      cases read : Resource.ofJson body with
      | error fault => exact .unreadable other read
      | ok resource => exact .resource other read

theorem Comes.unique {delivery : Delivery} {result result' : Except Failure Resource}
    (h : Comes delivery result) (h' : Comes delivery result') : result = result' := by
  cases h with
  | refused => cases h'; rfl
  | closed => cases h'; rfl
  | cut => cases h'; rfl
  | refusal error =>
    cases h' with
    | refusal => rfl
    | unreadable other => exact absurd error other
    | resource other => exact absurd error other
  | unreadable other read =>
    cases h' with
    | refusal error => exact absurd error other
    | unreadable _ read' => rw [Except.error.inj (read.symm.trans read')]
    | resource _ read' => exact absurd (read.symm.trans read') nofun
  | resource other read =>
    cases h' with
    | refusal error => exact absurd error other
    | unreadable _ read' => exact absurd (read.symm.trans read') nofun
    | resource _ read' => rw [Except.ok.inj (read.symm.trans read')]

theorem outcome_eq_iff {delivery : Delivery} (h : delivery.MayHaveBody)
    (result : Except Failure Resource) : outcome delivery = result ↔ Comes delivery result :=
  ⟨fun is => is ▸ comes_outcome h, fun comes => (comes_outcome h).unique comes⟩

section Logs

def errors (log : List Notice) : List Notice := log.filter fun notice => notice.level = .error

theorem errors_append (log log' : List Notice) : errors (log ++ log') = errors log ++ errors log' :=
  List.filter_append ..

theorem errors_kept (least : Level) (log : List Notice) :
    errors (log.filter (Verbosity.keeps (some least))) = errors log := by
  rw [errors, errors, List.filter_filter]
  refine List.filter_congr fun notice _ => ?_
  by_cases error : notice.level = .error
  · have kept : Verbosity.keeps (some least) notice = true := by
      cases least <;> simp [Verbosity.keeps, error, Level.rank]
    rw [kept, Bool.and_true]
  · rw [decide_eq_false error, Bool.false_and]

def failure? : Except Failure Resource → Option Failure
  | .ok _ => none
  | .error failure => some failure

theorem errors_notices (endpoint : Endpoint) (credentials : Credentials) (delivery : Delivery) :
    errors (notices endpoint credentials delivery) =
      ((failure? (outcome delivery)).map fun failure =>
        .exchangeFailed failure.message).toList := by
  have before : errors (delivery.status?.map Notice.responded).toList = [] := by
    cases delivery.status? <;> rfl
  rw [notices, errors_append, errors_append, before, List.append_nil]
  cases outcome delivery with
  | ok resource => rfl
  | error failure => rfl

theorem errors_run (least : Level) (endpoint : Endpoint) (encoding : Encoding)
    (authority : Request → Delivery) (credentials : Credentials) :
    errors (run (some least) endpoint encoding authority credentials).1 =
      ((failure? (run (some least) endpoint encoding authority credentials).2).map
        fun failure => .exchangeFailed failure.message).toList := by
  rw [run, errors_kept, errors_notices]

/-- In a log of many exchanges the errors are the failures, in order. -/
theorem errors_runs {Call : Type} (exchange : Call → List Notice × Except Failure Resource)
    (each : ∀ call, errors (exchange call).1 =
      ((failure? (exchange call).2).map fun failure => .exchangeFailed failure.message).toList)
    (calls : List Call) :
    errors (calls.flatMap fun call => (exchange call).1) =
      calls.filterMap fun call =>
        (failure? (exchange call).2).map fun failure => .exchangeFailed failure.message := by
  induction calls with
  | nil => rfl
  | cons call calls ih =>
    rw [List.flatMap_cons, errors_append, each, ih, List.filterMap_cons]
    cases failure? (exchange call).2 <;> rfl

end Logs

/-- An exchange succeeds just if a whole answer comes that reports no error and reads as a resource.
Otherwise it fails for the first of these reasons: there is no answer; it ends too early, whatever
its status and body; its status reports an error, which goes with the text of its body, whatever
that would read as; its body does not read as a resource. Whatever is logged at all, each exchange
that fails logs its failure as an error, and nothing else is logged as one. -/
theorem outcomes_of_exchanges :
    (∀ delivery : Delivery, delivery.MayHaveBody →
      (∀ resource, outcome delivery = .ok resource ↔
        ∃ status body, delivery = .whole status body ∧ ¬(400 ≤ status ∧ status < 600) ∧
          Resource.ofJson body = .ok resource) ∧
      (outcome delivery = .error .notSent ↔ delivery = .refused ∨ delivery = .closed) ∧
      (outcome delivery = .error .notRead ↔ ∃ status body, delivery = .cut status body) ∧
      (∀ status text, outcome delivery = .error (.refusal status text) ↔
        (400 ≤ status ∧ status < 600) ∧
          ∃ body, delivery = .whole status body ∧
            text = String.ofList (Utf8.decodeLossy body)) ∧
      ∀ fault, outcome delivery = .error (.unreadable fault) ↔
        ∃ status body, delivery = .whole status body ∧ ¬(400 ≤ status ∧ status < 600) ∧
          Resource.ofJson body = .error fault) ∧
    (∀ status (resource : Resource), 400 ≤ status ∧ status < 600 →
      outcome (.whole status (Utf8.encode resource.json)) =
        .error (.refusal status (String.ofList resource.json))) ∧
    ∀ least endpoint encoding (calls : List ((Request → Delivery) × Credentials)),
      ((calls.flatMap fun call => (run (some least) endpoint encoding call.1 call.2).1).filter
          fun notice => notice.level = .error) =
        calls.filterMap fun call =>
          match (run (some least) endpoint encoding call.1 call.2).2 with
          | .ok _ => none
          | .error failure => some (.exchangeFailed failure.message) := by
  refine ⟨fun delivery bears =>
      ⟨fun resource => ?_, ?_, ?_, fun status text => ?_, fun fault => ?_⟩,
    fun status resource error => ?_, fun least endpoint encoding calls => ?_⟩
  · rw [outcome_eq_iff bears]
    constructor
    · rintro (_ | _ | _ | _ | _ | ⟨other, read⟩)
      exact ⟨_, _, rfl, other, read⟩
    · rintro ⟨status, body, rfl, other, read⟩
      exact .resource other read
  · rw [outcome_eq_iff bears]
    constructor
    · rintro (_ | _)
      · exact .inl rfl
      · exact .inr rfl
    · rintro (rfl | rfl)
      · exact .refused
      · exact .closed
  · rw [outcome_eq_iff bears]
    constructor
    · rintro ⟨⟩
      exact ⟨_, _, rfl⟩
    · rintro ⟨status, body, rfl⟩
      exact .cut status body
  · rw [outcome_eq_iff bears]
    constructor
    · rintro ⟨⟩
      exact ⟨‹_›, _, rfl, rfl⟩
    · rintro ⟨error, body, rfl, rfl⟩
      exact .refusal error body
  · rw [outcome_eq_iff bears]
    constructor
    · rintro ⟨⟩
      exact ⟨_, _, rfl, ‹_›, ‹_›⟩
    · rintro ⟨status, body, rfl, other, read⟩
      exact .unreadable other read
  · rw [outcome_error ((isError_iff status).mpr error), Utf8.decodeLossy_encode]
  · have logged :=
      errors_runs _ (fun call => errors_run least endpoint encoding call.1 call.2) calls
    refine logged.trans (List.filterMap_congr fun call _ => ?_)
    cases (run (some least) endpoint encoding call.1 call.2).2 <;> rfl

/-- A token that comes with an error status, in an answer cut short, and as it should; and the log
of two exchanges of which the second is not answered. -/
theorem outcomes_of_exchanges_token :
    outcome (.whole 503 (Utf8.encode "\x7b\"access_token\":\"t\",\"expires_in\":60\x7d".toList)) =
      .error (.refusal 503 "\x7b\"access_token\":\"t\",\"expires_in\":60\x7d") ∧
    outcome (.cut 200 (Utf8.encode "\x7b\"access_token\":\"t\",\"expires_in\":60\x7d".toList)) =
      .error .notRead ∧
    outcome (.whole 200 (Utf8.encode "\x7b\"access_token\":\"t\",\"expires_in\":60\x7d".toList)) =
      .ok ⟨some ⟨"t"⟩, 60⟩ ∧
    ([(fun _ => .whole 200 (Utf8.encode "[]".toList), ⟨⟨"id"⟩, ⟨"one"⟩, none⟩),
        (fun _ => .closed, ⟨⟨"id"⟩, ⟨"two"⟩, none⟩)].flatMap
          fun call : (Request → Delivery) × Credentials =>
            (run (some .warn) ⟨"http://authority", "/"⟩ .json call.1 call.2).1.filter fun notice =>
              notice.level = .error) =
      [.exchangeFailed "error sending request to authority"] := by
  have token : (⟨some ⟨"t"⟩, 60⟩ : Resource).json =
      "\x7b\"access_token\":\"t\",\"expires_in\":60\x7d".toList := by decide +kernel
  rw [← token]
  have short : (Delivery.cut 200 (Utf8.encode (⟨some ⟨"t"⟩, 60⟩ : Resource).json)).MayHaveBody :=
    ⟨rfl, rfl⟩
  have answered :
      (Delivery.whole 200 (Utf8.encode (⟨some ⟨"t"⟩, 60⟩ : Resource).json)).MayHaveBody :=
    ⟨rfl, rfl⟩
  refine ⟨outcomes_of_exchanges.2.1 503 _ (by decide), ?_, ?_, ?_⟩
  · exact (outcomes_of_exchanges.1 _ short).2.2.1.mpr ⟨_, _, rfl⟩
  · exact ((outcomes_of_exchanges.1 _ answered).1 _).mpr
      ⟨_, _, rfl, by decide, Resource.ofJson_json _⟩
  · rw [← List.filter_flatMap, outcomes_of_exchanges.2.2]
    decide +kernel

end TokenKeeper.Exchange
