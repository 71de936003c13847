import Switchyard.Modification
import Switchyard.Proofs.Busbars
import Switchyard.Proofs.Feeders
import Switchyard.Proofs.Lines
import Switchyard.Proofs.Sections

namespace Switchyard.Modification

open Run

variable [Numbering] {tight : Prop} {s : Session}

/-- The voltage levels that a modification may remove. -/
def Dooms (m : Modification) (n : Network) (vl : String) : Prop :=
  match m with
  | .tapRemoval _ | .lineMerge _ => True
  | .teeReplacement m => ∃ j, n.junction m.target = .ok j ∧ vl ≠ j.voltageLevel
  | _ => False

/-- Every modification ends the same way in both modes, at most one fault apart. -/
theorem settled_run (m : Modification) (naming : NamingStrategy)
    (hs : ∀ e ∈ s.events, e.isError = false) :
    Settled tight (m.Dooms s.network) (m.run naming) s := by
  cases m with
  | feederBays m => exact (m.traced_steps naming fun _ => id).settled hs
  | feederRemoval m => exact m.settled_steps
  | coupling m => exact (m.builds_steps naming fun _ => id).settled hs
  | sectionInsertion m => exact (m.traced_steps naming fun _ => id).settled hs
  | grid m => exact (m.builds_steps naming fun _ => id).settled hs
  | feederConnection m => exact (m.builds_steps naming fun _ => id).settled hs
  | lineTap m => exact (m.traced_steps naming fun _ => id).settled hs
  | lineCut m => exact (m.traced_steps naming fun _ => id).settled hs
  | tapRemoval m => exact (m.traced_steps fun _ => trivial).settled hs
  | lineMerge m => exact (m.traced_steps fun _ => trivial).settled hs
  | teeReplacement m =>
    refine (m.traced_steps naming fun j hj vl => ?_).settled hs
    constructor
    · intro hx
      obtain ⟨j', hj', hne⟩ := hx
      have heq := Except.ok.inj (hj'.symm.trans hj)
      subst heq
      exact hne
    · exact fun hne => ⟨j, hj, hne⟩

/-- What comes of a modification of a coherent network: steps, and the report of
a fault after them if there is one. -/
theorem apply_cases {n : Network} (h : n.Coherent tight) (m : Modification)
    (naming : NamingStrategy) :
    (∃ t, Steps tight (m.Dooms n) ⟨n, []⟩ t ∧
        ∀ strict, m.apply n naming strict = ⟨t.network, t.events, none⟩) ∨
      ∃ f e t, f.kind ≠ .internal ∧ (e = .refused f ∨ e = .failed f) ∧
        Steps tight (m.Dooms n) ⟨n, []⟩ t ∧
        m.apply n naming true = ⟨t.network, t.events ++ [e], some f⟩ ∧
        m.apply n naming false = ⟨t.network, t.events ++ [e], none⟩ := by
  have hs : Settled tight (m.Dooms n) (m.run naming) ⟨n, []⟩ := m.settled_run naming (by simp)
  obtain ⟨t, hst, hrun⟩ | ⟨f, e, t, hf, he, hst, htrue, hfalse⟩ := hs h
  · exact Or.inl ⟨t, hst, fun strict => by simp only [apply, outcome, hrun]⟩
  · refine Or.inr ⟨f, e, t, hf, he, hst, ?_, ?_⟩
    · simp only [apply, outcome, htrue]
      rfl
    · simp only [apply, outcome, hfalse]
      rfl

theorem coherent_apply {n : Network} (h : n.Coherent tight) (m : Modification)
    (naming : NamingStrategy) (strict : Bool) :
    (m.apply n naming strict).network.Coherent tight := by
  obtain ⟨t, hst, hrun⟩ | ⟨f, e, t, -, -, hst, htrue, hfalse⟩ := m.apply_cases h naming
  · rw [hrun]
    exact hst.coherent h
  · cases strict with
    | true =>
      rw [htrue]
      exact hst.coherent h
    | false =>
      rw [hfalse]
      exact hst.coherent h

end Switchyard.Modification
