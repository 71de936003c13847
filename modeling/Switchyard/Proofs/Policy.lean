import Switchyard.Proofs.History

namespace Switchyard

open Network

variable {tight : Prop} {n : Network}

/-- Both modes leave the same network and the same reports. A fault is raised in
the strict mode alone, has the one error report there is, and is not internal. -/
structure Outcome.Agree (strict lenient : Outcome) : Prop where
  network_eq : lenient.network = strict.network
  reports_eq : lenient.events.map (·.report) = strict.events.map (·.report)
  lenient_fault : lenient.fault = none
  errors_eq : (strict.events.map (·.report)).countP (·.severity = .error) =
    if strict.fault.isSome then 1 else 0
  not_internal : ∀ f, strict.fault = some f → f.kind ≠ .internal

theorem countP_error_report (events : List Event) :
    (events.map (·.report)).countP (·.severity = .error) = events.countP (·.isError) := by
  rw [List.countP_map]
  rfl

theorem Steps.countP_isError {doomed : String → Prop} {t : Session}
    (h : Steps tight doomed ⟨n, []⟩ t) : t.events.countP (·.isError) = 0 := by
  obtain ⟨more, ht, hmore⟩ := h.events
  rw [ht, List.nil_append, List.countP_eq_zero]
  intro e he
  rw [hmore e he]
  exact Bool.false_ne_true

theorem Modification.outcomes_agree (h : n.Coherent tight) (m : Modification)
    (naming : NamingStrategy) : (m.apply n naming true).Agree (m.apply n naming false) := by
  obtain ⟨t, hst, hrun⟩ | ⟨f, e, t, hf, he, hst, htrue, hfalse⟩ := m.apply_cases h naming
  · simp only [hrun]
    refine ⟨rfl, rfl, rfl, ?_, fun f hf => by cases hf⟩
    rw [countP_error_report, hst.countP_isError]
    rfl
  · simp only [htrue, hfalse]
    refine ⟨rfl, rfl, rfl, ?_, fun g hg => Option.some.inj hg ▸ hf⟩
    have herror : e.isError = true := by
      refine e.isError_iff.mpr ?_
      rcases he with rfl | rfl
      · exact Or.inl ⟨f, rfl⟩
      · exact Or.inr ⟨f, rfl⟩
    rw [countP_error_report, List.countP_append, hst.countP_isError]
    simp [herror]

/-- A modification of a network, however it came about, does and reports the
same in both modes, and has one error report for each fault it would raise. -/
theorem Modification.modes_agree (id : String) (serial : Nat) (ops : List Operation)
    (m : Modification) (naming : NamingStrategy) :
    (m.apply ((empty id serial).after ops) naming true).Agree
      (m.apply ((empty id serial).after ops) naming false) :=
  m.outcomes_agree ((coherent_empty False id serial).after ops False.elim) naming

end Switchyard
