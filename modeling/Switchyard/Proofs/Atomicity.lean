import Switchyard.Proofs.Halves

namespace Switchyard.Change

open Network

variable {n m : Network} {f : Fault}

theorem unchanged_of_refuses {α : Type} {x : Edit α} (hx : x.Refuses n) (h : x n = .error f m) :
    m = n ∧ f.kind ≠ .internal := by
  obtain ⟨g, hr, hg⟩ := hx
  cases hr.symm.trans h
  exact ⟨rfl, hg⟩

/-- In every network that can come about, a change that is refused leaves all as
it was, the index and the nodes included, and is refused for no internal fault. -/
theorem unchanged_of_error (id : String) (serial : Nat) (ops : List Operation) (c : Change)
    (h : c.perform ((empty id serial).after ops) = .error f m) :
    m = (empty id serial).after ops ∧ f.kind ≠ .internal := by
  have hn : ((empty id serial).after ops).Coherent False :=
    (coherent_empty False id serial).after ops False.elim
  obtain ⟨a, k, hok, -⟩ | hr := c.atomic_perform hn False.elim
  · cases hok.symm.trans h
  · exact unchanged_of_refuses hr h

/-- A branch with both its sides at one free node. -/
def foldedBranch : Change :=
  .addConnectable (.branch
    { owner := 0, id := "K"
      terminal1 := some (.atNode "V" 7)
      terminal2 := some (.atNode "V" 7) })

theorem unchanged_of_error_foldedBranch :
    ∃ f m, foldedBranch.perform ((empty "N" 0).after spannedLine) = .error f m ∧
      m = (empty "N" 0).after spannedLine ∧ f.kind ≠ .internal := by
  have hrefused : (match foldedBranch.perform ((empty "N" 0).after spannedLine) with
      | .ok .. => false
      | .error .. => true) = true := by decide +kernel
  cases h : foldedBranch.perform ((empty "N" 0).after spannedLine) with
  | ok a k =>
    rw [h] at hrefused
    cases hrefused
  | error f m => exact ⟨f, m, rfl, unchanged_of_error "N" 0 spannedLine foldedBranch h⟩

end Switchyard.Change
