import TokenKeeper.Proofs.Docket.Agenda
/-! A program whose runs ask for the next run as the last thing they do, and runs that come one
after the other because each of them has been asked for by the one before. -/
namespace TokenKeeper

namespace Action

def AsksLast (actions : List Action) : Prop :=
  ∀ before delay after, actions = before ++ .schedule delay :: after →
    .panic ∉ before → after = []

theorem AsksLast.of_dropLast {actions : List Action}
    (h : ∀ delay, .schedule delay ∉ actions.dropLast) : AsksLast actions := by
  rintro before delay after rfl -
  by_contra more
  refine h delay ?_
  rw [List.dropLast_append_cons, List.dropLast_cons_of_ne_nil more]
  exact List.mem_append_right _ (List.mem_cons_self ..)

theorem AsksLast.performs {before after : List Action} (h : AsksLast before)
    (step : Performs before after) : AsksLast after := by
  intro front delay back split unpanicked
  cases step with
  | @begin pause due rest =>
    -- The pause stands for the one it was.
    cases front with
    | nil => cases split
    | cons first front =>
      rw [List.cons_append, List.cons.injEq] at split
      refine h (.pause pause :: front) delay back (by rw [split.2]; rfl) fun panic => ?_
      obtain panic | panic := List.mem_cons.mp panic
      · cases panic
      · exact unpanicked (List.mem_cons_of_mem _ panic)
  | @done action rest other =>
    refine h (action :: front) delay back (by rw [split]; rfl) fun panic => ?_
    obtain panic | panic := List.mem_cons.mp panic
    · exact other panic.symm
    · exact unpanicked panic

theorem AsksLast.remains {before after : List Action} (h : AsksLast before)
    (remains : Remains before after) : AsksLast after := by
  induction remains with
  | refl => exact h
  | tail _ step ih => exact ih.performs step

theorem Remains.getLast? {before after : List Action} (remains : Remains before after)
    {delay : Span} (last : after.getLast? = some (.schedule delay)) :
    before.getLast? = some (.schedule delay) := by
  induction remains using Relation.ReflTransGen.head_induction_on with
  | refl => exact last
  | head step _ ih =>
    cases step with
    | @begin pause due rest =>
      cases rest with
      | nil => cases ih
      | cons => exact ih
    | done =>
      rw [List.getLast?_cons, ih]
      rfl

end Action

/-- The run at this place in the program asked for another one, which comes no earlier than `t`. -/
def Run.Calls (program : Nat → List Action) (k : Nat) (run : Run) (t : Instant) : Prop :=
  ∃ delay ended, (program k).getLast? = some (.schedule delay) ∧
    run.ending = some (.returned ended) ∧ ended.afterRest delay ≤ t

structure Succession (program : Nat → List Action) (now : Instant) (runs : List Run) : Prop where
  past : ∀ run ∈ runs, run.began ≤ now
  forward : ∀ run ∈ runs, ∀ time, run.ending = some (.returned time) → run.began ≤ time
  called : ∀ (k : Nat) first second, runs[k]? = some first → runs[k + 1]? = some second →
    first.Calls program k second.began

def Invites (program : Nat → List Action) (runs : List Run) (t : Instant) : Prop :=
  ∀ (k : Nat) last, runs.length = k + 1 → runs[k]? = some last → last.Calls program k t

variable {program : Nat → List Action} {runs : List Run} {t t' now : Instant}

theorem Invites.mono (h : Invites program runs t) (le : t ≤ t') : Invites program runs t' := by
  intro k last length hk
  obtain ⟨delay, ended, last, returned, early⟩ := h k last length hk
  exact ⟨delay, ended, last, returned, early.trans le⟩

theorem Invites.nil (program : Nat → List Action) (t : Instant) : Invites program [] t := nofun

theorem Invites.endRun {place : Nat} {delay : Span} (length : runs.length = place + 1)
    (asks : (program place).getLast? = some (.schedule delay)) (now : Instant) :
    Invites program
      (runs.modify place fun run => { run with ending := some (.returned now) })
      (now.afterRest delay) := by
  intro k last length' hk
  rw [List.length_modify, length] at length'
  obtain rfl : place = k := by omega
  obtain ⟨run, -, rfl⟩ := getElem?_modify_cases hk
  rw [if_pos rfl]
  exact ⟨delay, now, asks, rfl, le_rfl⟩

namespace Succession

theorem mono (h : Succession program t runs) (le : t ≤ t') : Succession program t' runs :=
  ⟨fun run hr => (h.past run hr).trans le, h.forward, h.called⟩

theorem nil (program : Nat → List Action) (t : Instant) : Succession program t [] :=
  ⟨nofun, nofun, nofun⟩

theorem enter (h : Succession program now runs) (free : Invites program runs now) (number : Nat) :
    Succession program now (runs ++ [⟨number, now, none⟩]) where
  past := by
    intro run hr
    obtain old | new := List.mem_append.mp hr
    · exact h.past run old
    · rw [List.mem_singleton.mp new]
  forward := by
    intro run hr time returned
    obtain old | new := List.mem_append.mp hr
    · exact h.forward run old time returned
    · rw [List.mem_singleton.mp new] at returned
      cases returned
  called := by
    intro k first second hk hk'
    obtain old | ⟨rfl, -⟩ := getElem?_concat_cases hk
    · obtain old' | ⟨length, rfl⟩ := getElem?_concat_cases hk'
      · exact h.called k first second old old'
      · exact free k first length.symm old
    · rw [List.getElem?_eq_none (by simp)] at hk'
      cases hk'

theorem endRun (h : Succession program now runs) {place : Nat} (length : runs.length = place + 1)
    {ending : Ending} (at_once : ∀ time, ending = .returned time → time = now) :
    Succession program now (runs.modify place fun run => { run with ending := some ending }) where
  past := by
    intro run hr
    obtain ⟨k, hk⟩ := List.mem_iff_getElem?.mp hr
    obtain ⟨before, hb, rfl⟩ := getElem?_modify_cases hk
    have past := h.past before (List.mem_of_getElem? hb)
    split <;> exact past
  forward := by
    intro run hr time returned
    obtain ⟨k, hk⟩ := List.mem_iff_getElem?.mp hr
    obtain ⟨before, hb, rfl⟩ := getElem?_modify_cases hk
    have member := List.mem_of_getElem? hb
    split at returned
    · rename_i here
      rw [if_pos here, at_once time (Option.some.inj returned)]
      exact h.past before member
    · rename_i elsewhere
      rw [if_neg elsewhere]
      exact h.forward before member time returned
  called := by
    intro k first second hk hk'
    obtain ⟨before, hb, rfl⟩ := getElem?_modify_cases hk
    obtain ⟨before', hb', rfl⟩ := getElem?_modify_cases hk'
    have bound := (List.getElem?_eq_some_iff.mp hb').1
    rw [if_neg (by omega)]
    have called := h.called k before before' hb hb'
    split <;> exact called

end Succession

end TokenKeeper
