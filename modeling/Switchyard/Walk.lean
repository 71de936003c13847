import Switchyard.Wiring

namespace Switchyard

/-- An edge on offer, with the end it is seen from and the other one. -/
structure Hop where
  source : Node
  edge : Edge
  target : Node
  deriving DecidableEq

/-- What to do after an edge: walk on from its far end, leave that end, or end
the whole walk. -/
inductive Verdict where
  | onward
  | leave
  | stop
  deriving DecidableEq

/-- Walks depth first over `edges` from the top of `trail`. The edges of a node
are offered in the order of the list, each edge once. A node is walked on from
once only. The answer is `false` if the visitor stopped the walk. -/
def walk {σ : Type} (visit : σ → Hop → Verdict × σ) (edges : List Edge) (entered : List Node)
    (trail : List Node) (state : σ) : Bool × σ :=
  match trail with
  | [] => (true, state)
  | node :: rest =>
    match _h : edges.find? (·.touches node) with
    | none => walk visit edges entered rest state
    | some e =>
      let target := e.farEnd node
      match visit state ⟨node, e, target⟩ with
      | (.stop, state) => (false, state)
      | (.leave, state) => walk visit (edges.erase e) entered (node :: rest) state
      | (.onward, state) =>
        if target ∈ entered then walk visit (edges.erase e) entered (node :: rest) state
        else walk visit (edges.erase e) (target :: entered) (target :: node :: rest) state
termination_by 2 * edges.length + trail.length
decreasing_by
  all_goals first
    | (simp; done)
    | (have hm := List.mem_of_find?_eq_some _h
       have hl := List.length_erase_of_mem hm
       have hp := List.length_pos_of_mem hm
       simp only [List.length_cons]
       omega)

variable [Numbering]

/-- Walks over the edges of a wiring. -/
def Wiring.traverse {σ : Type} (w : Wiring) (start : Node) (visit : σ → Hop → Verdict × σ)
    (state : σ) : Bool × σ :=
  walk visit w.edgeList [start] [start] state

/-- The edges offered by a walk, in order. -/
def Wiring.hops (w : Wiring) (start : Node) (verdict : Hop → Verdict) : Bool × List Hop :=
  let (completed, seen) := w.traverse start (fun seen h => (verdict h, h :: seen)) []
  (completed, seen.reverse)

end Switchyard
