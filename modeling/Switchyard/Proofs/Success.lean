import Switchyard.Proofs.Effects

namespace Switchyard

/-- No fault was raised, and no error reported. A modification that is not
strict raises no fault but reports it. -/
def Outcome.Succeeds (o : Outcome) : Prop :=
  o.fault = none ∧ ∀ e ∈ o.events, e.isError = false

instance (o : Outcome) : Decidable o.Succeeds :=
  inferInstanceAs (Decidable (o.fault = none ∧ ∀ e ∈ o.events, e.isError = false))

namespace Run

variable {α : Type} {s t : Session}

theorem network_eq_ok {n : Network} : network s = .ok n t ↔ s.network = n ∧ s = t := by
  simp only [network, bind_eq_ok, get_eq_ok, pure_eq_ok]
  constructor
  · rintro ⟨_, _, ⟨rfl, rfl⟩, h⟩
    exact h
  · exact fun h => ⟨s, s, ⟨rfl, rfl⟩, h⟩

theorem edit_eq_ok {change : Edit α} {a : α} :
    edit change s = .ok a t ↔
      ∃ n, change s.network = .ok a n ∧ t = { s with network := n } := by
  unfold edit
  cases change s.network with
  | ok b n =>
    simp only [EStateM.Result.ok.injEq]
    constructor
    · rintro ⟨rfl, rfl⟩
      exact ⟨n, ⟨rfl, rfl⟩, rfl⟩
    · rintro ⟨_, ⟨rfl, rfl⟩, rfl⟩
      exact ⟨rfl, rfl⟩
  | error f n => simp

theorem lookUp_eq_ok {answer : Except Fault α} {a : α} :
    lookUp answer s = .ok a t ↔ answer = .ok a ∧ s = t := by
  cases answer with
  | ok b => simp only [lookUp, pure_eq_ok, Except.ok.injEq]
  | error f => simp only [lookUp, throw_eq_ok, reduceCtorEq, false_and]

theorem emit_eq_ok {e : Event} {u : Unit} : emit e s = .ok u t ↔ t = s.tell e :=
  modify_eq_ok

theorem refuse_eq_ok {f : Fault} {a : α} : refuse f s = .ok a t ↔ False := by
  simp only [refuse, bind_eq_ok, throw_eq_ok, and_false, exists_false]

/-- The failure policy passes over no fault without a report. -/
theorem not_succeeds_of_settle {strict : Bool} {f : Fault} {steps : Run Unit} {n : Network}
    (h : steps ⟨n, []⟩ = .error f t) : ¬((steps.finish strict).outcome n).Succeeds := by
  rintro ⟨hfault, hevents⟩
  have hfinish : steps.finish strict ⟨n, []⟩ = settle strict f t := by
    simp only [finish, h]
  cases hr : settle strict f t with
  | error g u =>
    simp only [outcome, hfinish, hr, reduceCtorEq] at hfault
  | ok a u =>
    simp only [outcome, hfinish, hr] at hevents
    unfold settle at hr
    split at hr
    · simp only [bind_eq_ok, throw_eq_ok, false_and, exists_false] at hr
    · simp only [bind_eq_ok, get_eq_ok] at hr
      obtain ⟨_, _, ⟨rfl, rfl⟩, hr⟩ := hr
      cases strict with
      | true =>
        split at hr
        · simp only [bind_eq_ok, fail, if_true, throw_eq_ok, and_false, exists_false] at hr
        · simp only [fail, if_true, throw_eq_ok] at hr
      | false =>
        split at hr
        · simp only [bind_eq_ok, emit_eq_ok, fail, Bool.false_eq_true, if_false,
            pure_eq_ok] at hr
          obtain ⟨_, _, rfl, -, rfl⟩ := hr
          have herror := hevents (.failed f) (by simp [Session.tell])
          rw [(Event.isError_iff _).mpr (Or.inr ⟨f, rfl⟩)] at herror
          cases herror
        next hany =>
          simp only [fail, Bool.false_eq_true, if_false, pure_eq_ok] at hr
          obtain ⟨-, rfl⟩ := hr
          have hnone : t.events.any (·.isError) = false := by
            rw [List.any_eq_false]
            exact fun e he => by simp [hevents e he]
          simp [hnone] at hany

theorem ok_of_succeeds {strict : Bool} {steps : Run Unit} {n : Network}
    (h : ((steps.finish strict).outcome n).Succeeds) :
    ∃ t, steps ⟨n, []⟩ = .ok () t ∧ ((steps.finish strict).outcome n).network = t.network := by
  cases hr : steps ⟨n, []⟩ with
  | ok a t =>
    refine ⟨t, rfl, ?_⟩
    simp only [outcome, finish, hr]
  | error f t => exact absurd h (not_succeeds_of_settle hr)

end Run

end Switchyard
