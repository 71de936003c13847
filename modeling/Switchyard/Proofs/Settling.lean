import Switchyard.Proofs.Trace

namespace Switchyard.Run

variable [Numbering] {tight : Prop} {doomed : String → Prop} {s : Session}

/-- From a coherent network, the run takes steps and either ends well in both
modes, or ends with one report of a fault that is not internal. That fault is
raised in the strict mode and passed over in the other one. -/
def Settled (tight : Prop) (doomed : String → Prop) (r : Bool → Run Unit) (s : Session) : Prop :=
  s.network.Coherent tight →
    (∃ t, Steps tight doomed s t ∧ ∀ strict, r strict s = .ok () t) ∨
      ∃ f e t, f.kind ≠ .internal ∧ (e = .refused f ∨ e = .failed f) ∧ Steps tight doomed s t ∧
        r true s = .error f (t.tell e) ∧ r false s = .ok () (t.tell e)

/-- A fault that its report tells of is not reported again. -/
theorem settle_told {strict : Bool} {f : Fault} (hf : f.kind ≠ .internal) {e : Event}
    (he : e.isError = true) :
    settle strict f (s.tell e) = fail strict f (s.tell e) := by
  have hany : (s.tell e).events.any (·.isError) = true := by
    simp [Session.tell, he]
  unfold settle
  rw [if_neg hf]
  simp only [bind_apply, get_apply, hany]
  rfl

/-- A fault that no report tells of is reported as a failure. -/
theorem settle_untold {strict : Bool} {f : Fault} (hf : f.kind ≠ .internal)
    (hs : ∀ e ∈ s.events, e.isError = false) :
    settle strict f s = fail strict f (s.tell (.failed f)) := by
  have hany : s.events.any (·.isError) = false := by
    simpa using hs
  unfold settle
  rw [if_neg hf]
  simp only [bind_apply, get_apply, hany]
  rfl

/-- A fault that ends steps taken from a coherent network is told in both modes,
after those steps. -/
theorem Traced.settle_of_error {steps : Run Unit} {p : Unit → Session → Prop}
    (h : Traced tight doomed steps s p) (hn : s.network.Coherent tight)
    (hs : ∀ e ∈ s.events, e.isError = false) {f : Fault} {t : Session}
    (hr : steps s = .error f t) :
    f.kind ≠ .internal ∧ ∃ e u, (e = .refused f ∨ e = .failed f) ∧ Steps tight doomed s u ∧
      t.network = u.network ∧ ∀ strict, settle strict f t = fail strict f (u.tell e) := by
  have h := h hn
  rw [hr] at h
  obtain ⟨hf, u, hu, rfl | rfl⟩ := h
  · obtain ⟨more, hevents, hmore⟩ := hu.events
    have hquiet : ∀ e ∈ t.events, e.isError = false := fun e he => by
      rw [hevents] at he
      exact (List.mem_append.mp he).elim (hs e) (hmore e)
    exact ⟨hf, .failed f, t, Or.inr rfl, hu, rfl, fun _ => settle_untold hf hquiet⟩
  · have he : (Event.refused f).isError = true := (Event.isError_iff _).mpr (Or.inl ⟨f, rfl⟩)
    exact ⟨hf, .refused f, u, Or.inl rfl, hu, rfl, fun _ => settle_told hf he⟩

theorem Traced.settled {steps : Run Unit} {p : Unit → Session → Prop}
    (h : Traced tight doomed steps s p) (hs : ∀ e ∈ s.events, e.isError = false) :
    Settled tight doomed (fun strict => steps.finish strict) s := by
  intro hn
  cases hr : steps s with
  | ok a t =>
    have h := h hn
    rw [hr] at h
    exact Or.inl ⟨t, h.1, fun strict => by simp only [finish, hr]⟩
  | error f t =>
    obtain ⟨hf, e, u, he, hu, -, hsettle⟩ := h.settle_of_error hn hs hr
    have hfinish : ∀ strict, finish strict steps s = fail strict f (u.tell e) := fun strict => by
      simp only [finish, hr, hsettle]
    simp only [hfinish]
    exact Or.inr ⟨f, e, u, hf, he, hu, rfl, rfl⟩

end Switchyard.Run
