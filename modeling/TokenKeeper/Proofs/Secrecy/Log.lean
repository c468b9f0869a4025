import TokenKeeper.Grant.Exchange
import TokenKeeper.Proofs.Secrecy.Operations
/-! Runs that differ in the texts of tokens only, and exchanges that differ in the client's secret
only, cannot be told apart by what is logged. -/
namespace TokenKeeper

/-- Both are empty or neither is; and where they are attached to requests, both may stand in a
header or neither. -/
structure AccessToken.Alike (attached : Bool) (token token' : AccessToken) : Prop where
  empty : token.text = "" ↔ token'.text = ""
  fits : attached = true → (Header.ofToken token).isSome = (Header.ofToken token').isSome

inductive Reply.Alike (attached : Bool) : Reply → Reply → Prop where
  | same (reply : Reply) : Alike attached reply reply
  | token {token token' : AccessToken} (lifetime : UInt64) (alike : token.Alike attached token') :
    Alike attached (.resource ⟨some token, lifetime⟩) (.resource ⟨some token', lifetime⟩)

def Issuer.Alike (attached : Bool) (issuer issuer' : Issuer) : Prop :=
  ∀ n, (issuer n).pauses = (issuer' n).pauses ∧ (issuer n).reply.Alike attached (issuer' n).reply

inductive Operation.Alike (attached : Bool) : Operation → Operation → Prop where
  | same (operation : Operation) : Alike attached operation operation
  | openCache (config : Config) {issuer issuer' : Issuer} (alike : issuer.Alike attached issuer') :
    Alike attached (.openCache config issuer) (.openCache config issuer')

def Operation.isForwardTo (c : CacheId) : Operation → Bool
  | forward other _ => other == c
  | _ => false

/-- The same operations in the same order, in a run from this world. A new cache comes after all
others, and its tokens are `attached` to requests or not. -/
def World.Alike (attached : CacheId → Bool) (w : World) : List Operation → List Operation → Prop
  | [], [] => True
  | operation :: rest, operation' :: rest' =>
    operation.Alike (attached w.caches.length) operation' ∧
      ∀ answer next, w.operate operation = some (answer, next) → next.Alike attached rest rest'
  | _, _ => False

theorem World.Alike.same (attached : CacheId → Bool) (w : World) (operations : List Operation) :
    w.Alike attached operations operations := by
  induction operations generalizing w with
  | nil => trivial
  | cons operation rest ih => exact ⟨.same operation, fun _ next _ => ih next⟩

namespace Disguise

def uniform (attached : Bool) : Disguise where
  text s :=
    if s = "" then ""
    else if attached && (Header.ofToken ⟨s⟩).isNone then "\n"
    else "token"
  empty s := by
    by_cases empty : s = ""
    · simp [empty]
    · cases attached && (Header.ofToken ⟨s⟩).isNone <;> simp [empty]

theorem uniform_fits : (uniform true).Fits := by
  have blank : (Header.ofToken ⟨""⟩).isSome = true := by decide
  have newline : (Header.ofToken ⟨"\n"⟩).isSome = false := by decide
  have plain : (Header.ofToken ⟨"token"⟩).isSome = true := by decide
  intro s
  by_cases empty : s = ""
  · simp [uniform, empty, blank]
  · cases fit : Header.ofToken ⟨s⟩ <;> simp [uniform, empty, fit, newline, plain]

variable {attached : Bool}

theorem uniform_token {token token' : AccessToken} (alike : token.Alike attached token') :
    token.disguise (uniform attached) = token'.disguise (uniform attached) := by
  have fits : (attached && (Header.ofToken token).isNone) =
      (attached && (Header.ofToken token').isNone) := by
    cases attached with
    | false => rfl
    | true => rw [← Option.not_isSome, ← Option.not_isSome, alike.fits rfl]
  simp only [AccessToken.disguise, uniform, alike.empty, fits]

theorem uniform_reply {reply reply' : Reply} (alike : reply.Alike attached reply') :
    reply.disguise (uniform attached) = reply'.disguise (uniform attached) := by
  cases alike with
  | same => rfl
  | token lifetime alike => simp [Reply.disguise, uniform_token alike]

theorem uniform_operation {operation operation' : Operation}
    (alike : operation.Alike attached operation') :
    operation.disguise (uniform attached) = operation'.disguise (uniform attached) := by
  cases alike with
  | same => rfl
  | openCache config alike =>
    simp only [Operation.disguise, Operation.openCache.injEq, true_and]
    funext n
    simp only [Issuer.disguise, Call.disguise, Call.mk.injEq]
    exact ⟨(alike n).1, uniform_reply (alike n).2⟩

end Disguise

namespace World
variable {attached : CacheId → Bool} {w w' : World}

/-- One operation on two worlds that are one in disguise: it shows the same, and they are so
afterwards. -/
theorem operate_uniform {operation operation' : Operation}
    (same : w.disguise (fun c => .uniform (attached c)) =
      w'.disguise fun c => .uniform (attached c))
    (forwards : ∀ c, operation.isForwardTo c = true → attached c = true)
    (alike : operation.Alike (attached w.caches.length) operation') :
    (w.operate operation).map (fun r => (r.1.redact, r.2.disguise fun c => .uniform (attached c))) =
      (w'.operate operation').map fun r =>
        (r.1.redact, r.2.disguise fun c => .uniform (attached c)) := by
  have length : w.caches.length = w'.caches.length := by
    simpa using congrArg (·.caches.length) same
  have fits (c : CacheId) (headers : List Header) (forward : operation = .forward c headers) :
      (Disguise.uniform (attached c)).Fits := by
    rw [forwards c (by simp [forward, Operation.isForwardTo])]
    exact Disguise.uniform_fits
  have fits' (c : CacheId) (headers : List Header) (forward : operation' = .forward c headers) :
      (Disguise.uniform (attached c)).Fits := by
    cases alike with
    | same => exact fits c headers forward
    | openCache => cases forward
  have acts := disguise_operate (fun c => .uniform (attached c)) w operation fits
  have acts' := disguise_operate (fun c => .uniform (attached c)) w' operation' fits'
  rw [← length, ← Disguise.uniform_operation alike, ← same] at acts'
  exact acts.symm.trans acts'

/-- Worlds that are one in disguise show the same, whatever is done to both of them. -/
theorem record_uniform {operations operations' : List Operation}
    (same : w.disguise (fun c => .uniform (attached c)) =
      w'.disguise fun c => .uniform (attached c))
    (forwards : ∀ operation ∈ operations, ∀ c, operation.isForwardTo c = true → attached c = true)
    (alike : w.Alike attached operations operations') :
    w.record operations = w'.record operations' := by
  induction operations generalizing w w' operations' with
  | nil =>
    cases operations' with
    | nil => rfl
    | cons => cases alike
  | cons operation rest ih =>
    cases operations' with
    | nil => cases alike
    | cons operation' rest' =>
      obtain ⟨first, others⟩ := alike
      have one := operate_uniform same (forwards operation List.mem_cons_self) first
      unfold record
      cases ran : w.operate operation with
      | none =>
        rw [ran, Option.map_none, eq_comm, Option.map_eq_none_iff] at one
        rw [one]
      | some r =>
        rw [ran, Option.map_some, eq_comm, Option.map_eq_some_iff] at one
        obtain ⟨r', ran', both⟩ := one
        obtain ⟨answers, worlds⟩ := Prod.mk.inj both
        have sights : r'.2.sight = r.2.sight := by
          rw [← disguise_sight (fun c => .uniform (attached c)), worlds, disguise_sight]
        rw [ran']
        simp only [answers, sights, List.cons.injEq, true_and]
        apply ih worlds.symm
        · exact fun other member => forwards other (List.mem_cons_of_mem _ member)
        · exact others _ _ ran

end World

namespace Exchange

theorem run_secret (verbosity : Verbosity) (endpoint : Endpoint) (encoding : Encoding)
    (authority : Request → Delivery) (credentials : Credentials) (secret : ClientSecret)
    (answered : authority (request endpoint encoding { credentials with clientSecret := secret }) =
      authority (request endpoint encoding credentials)) :
    run verbosity endpoint encoding authority { credentials with clientSecret := secret } =
      run verbosity endpoint encoding authority credentials := by
  simp only [run, answered, notices]

end Exchange

/-- What shows of a run does not depend on the texts of tokens, and what shows of an exchange does
not depend on the client's secret, at any level of the log. -/
theorem secrets_stay_hidden :
    (∀ (w : World) operations operations',
      w.Alike (fun c => operations.any (·.isForwardTo c)) operations operations' →
        w.record operations = w.record operations') ∧
    ∀ verbosity endpoint encoding (authority : Exchange.Request → Exchange.Delivery)
      (credentials : Credentials) secret,
      authority (Exchange.request endpoint encoding { credentials with clientSecret := secret }) =
          authority (Exchange.request endpoint encoding credentials) →
        Exchange.run verbosity endpoint encoding authority
            { credentials with clientSecret := secret } =
          Exchange.run verbosity endpoint encoding authority credentials := by
  constructor
  · intro w operations operations' alike
    apply World.record_uniform rfl _ alike
    intro operation member c forward
    exact List.any_eq_true.mpr ⟨operation, member, forward⟩
  · intro verbosity endpoint encoding authority credentials secret
    exact Exchange.run_secret verbosity endpoint encoding authority credentials secret

/-- A token that is read and attached to a request, and another one in its place; and two secrets
that the authority refuses. -/
theorem secrets_stay_hidden_refused :
    ({ verbosity := some .trace } : World).record
        [.openCache {} (.fixed ⟨⟨"alpha"⟩, 60⟩), .read 0 true, .forward 0 []] =
      ({ verbosity := some .trace } : World).record
        [.openCache {} (.fixed ⟨⟨"omega"⟩, 60⟩), .read 0 true, .forward 0 []] ∧
    Exchange.run (some .trace) ⟨"http://authority", "/"⟩ .form (fun _ => .whole 401 [])
        ⟨⟨"id"⟩, ⟨"one"⟩, none⟩ =
      Exchange.run (some .trace) ⟨"http://authority", "/"⟩ .form (fun _ => .whole 401 [])
        ⟨⟨"id"⟩, ⟨"two"⟩, none⟩ := by
  constructor
  · have alike : (Issuer.fixed ⟨⟨"alpha"⟩, 60⟩).Alike true (Issuer.fixed ⟨⟨"omega"⟩, 60⟩) :=
      fun n => ⟨rfl, .token 60 ⟨by decide, by decide⟩⟩
    apply secrets_stay_hidden.1
    exact ⟨.openCache {} alike, fun _ next _ => .same _ next _⟩
  · exact secrets_stay_hidden.2 _ _ _ _ ⟨⟨"id"⟩, ⟨"two"⟩, none⟩ ⟨"one"⟩ rfl

end TokenKeeper
