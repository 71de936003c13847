import Switchyard.Switching

namespace Switchyard

/-- What a node of a bay holds. -/
inductive Occupant where
  | vacant
  | rail
  | equipment
  deriving DecidableEq

/-- The part of a wiring around a node, up to the first busbar section on each
path. The edges are numbered in the order of the walk that found them. -/
structure Bay where
  edges : List (Nat × Edge)
  occupant : Node → Occupant

/-- What pruning does to a bay. -/
inductive Cut where
  | remove (e : Edge)
  | stopAt (fork : Node)
  deriving DecidableEq

def Network.occupant [Numbering] (n : Network) (w : Wiring) (node : Node) : Occupant :=
  match w.terminals[node]? with
  | none => .vacant
  | some a => if n.busbarSections.contains a.connectable then .rail else .equipment

/-- The bay around a node. Each edge runs in the direction it was walked. -/
def Network.bay [Numbering] (n : Network) (w : Wiring) (start : Node) : Bay where
  edges :=
    ((w.hops start fun h => if n.occupant w h.target = .rail then .leave else .onward).2.zipIdx).map
      fun (h, number) => (number, ⟨h.source, h.target, h.edge.link⟩)
  occupant := n.occupant w

namespace Bay

/-- The edges left at a node. -/
def edgesAt (b : Bay) (node : Node) : List (Nat × Edge) :=
  b.edges.filter (·.2.touches node)

def without (b : Bay) (number : Nat) : Bay :=
  { b with edges := b.edges.filter (·.1 != number) }

def size (b : Bay) : Nat :=
  b.edges.length

theorem size_without_lt {b : Bay} {entry : Nat × Edge} (h : entry ∈ b.edges) :
    (b.without entry.1).size < b.size := by
  apply List.length_filter_lt_length_iff_exists.mpr
  exact ⟨entry, h, by simp⟩

theorem mem_of_mem_edgesAt {b : Bay} (node : Node) {entry : Nat × Edge}
    (h : entry ∈ b.edgesAt node) : entry ∈ b.edges :=
  (List.mem_filter.mp h).1

/-- What a branch of a fork leads to without going back through the fork. -/
structure Reach where
  rail : Bool := false
  equipment : Bool := false

def Reach.note (r : Reach) : Occupant → Reach
  | .vacant => r
  | .rail => { r with rail := true }
  | .equipment => { r with equipment := true }

/-- What the branch of `fork` that starts at `first` leads to, where paths end at
busbar sections. -/
def reach (b : Bay) (fork first : Node) : Reach :=
  let seen : Reach := Reach.note {} (b.occupant first)
  if first = fork ∨ b.occupant first = .rail then seen
  else
    (walk
      (fun seen h =>
        if h.target = fork then (.leave, seen)
        else
          (if b.occupant h.target = .rail then .leave else .onward,
            seen.note (b.occupant h.target)))
      (b.edges.map (·.2)) [first] [first] seen).2

/-- The edges to take from a node on, none from a busbar section. -/
def onward (b : Bay) (node : Node) : List (Node × Nat × Edge) :=
  if b.occupant node = .rail then [] else (b.edgesAt node).map (node, ·)

theorem length_onward_le (b : Bay) (node : Node) : (b.onward node).length ≤ b.size := by
  unfold onward
  split
  · simp
  · simpa [edgesAt, size] using List.length_filter_le _ _

/-- Removes branches up to the busbar sections they lead to. `pending` holds the
nodes to start from and the edges to take. -/
def removeBranches (b : Bay) : (pending : List (Node × Nat × Edge)) → List Cut × Bay
  | [] => ([], b)
  | (origin, entry) :: rest =>
    if _h : entry ∈ b.edges then
      let smaller := b.without entry.1
      let (cuts, last) := removeBranches smaller (smaller.onward (entry.2.farEnd origin) ++ rest)
      (.remove entry.2 :: cuts, last)
    else removeBranches b rest
termination_by pending => b.size * b.size + pending.length
decreasing_by
  · have hs := Nat.succ_le_of_lt (size_without_lt _h)
    have hn := length_onward_le (b.without entry.1) (entry.2.farEnd origin)
    have hm := Nat.mul_le_mul hs hs
    simp only [Nat.succ_eq_add_one, Nat.add_mul, Nat.mul_add, Nat.one_mul, Nat.mul_one] at hm
    simp only [List.length_append, List.length_cons]
    omega
  · simp

/-- Removes the edges from a node on, up to the first node that is not a plain
chain. -/
def removeChain (b : Bay) (node : Node) : List Cut :=
  match _h : b.edgesAt node with
  | [] => []
  | entry :: _ =>
    let smaller := b.without entry.1
    let far := entry.2.farEnd node
    if (smaller.edgesAt far).length = 1 ∧ b.occupant far = .vacant then
      .remove entry.2 :: removeChain smaller far
    else [.remove entry.2]
termination_by b.size
decreasing_by
  exact size_without_lt (mem_of_mem_edgesAt node (by rw [_h]; simp))

/-- Prunes a fork. If a branch leads to equipment and to no busbar section, the
fork is shared and left as it is. Otherwise the branches without equipment are
removed, and so is the start of the other branch if there is just one. -/
def pruneFork (b : Bay) (fork : Node) : List Cut :=
  let branches := (b.edgesAt fork).map fun entry => (entry, b.reach fork (entry.2.farEnd fork))
  if branches.any fun branch => branch.2.equipment && !branch.2.rail then [.stopAt fork]
  else
    let free := (branches.filter (!·.2.equipment)).map fun branch => (fork, branch.1)
    let (cuts, rest) := b.removeBranches free
    if (branches.filter (·.2.equipment)).length = 1 then cuts ++ rest.removeChain fork else cuts

/-- Prunes from a node on: the edges of a plain chain, then the fork at its end. -/
def prune (b : Bay) (node : Node) : List Cut :=
  match _h : b.edgesAt node with
  | [] => []
  | [entry] => .remove entry.2 :: prune (b.without entry.1) (entry.2.farEnd node)
  | _ => b.pruneFork node
termination_by b.size
decreasing_by
  exact size_without_lt (mem_of_mem_edgesAt node (by rw [_h]; simp))

end Bay

namespace Run

variable [Numbering]

def cut (connectable voltageLevel : String) : List Cut → Run Unit
  | [] => return
  | c :: rest => do
    match c with
    | .stopAt fork => emit (.pruningStopped connectable fork)
    | .remove ⟨_, _, .switch id⟩ => do
      edit (Edit.removeSwitch id)
      emit (.switchRemoved id)
    | .remove ⟨node1, node2, .connection⟩ => do
      let _ ← edit (Edit.removeConnections voltageLevel node1 node2)
      emit (.connectionRemoved node1 node2)
    cut connectable voltageLevel rest

/-- Removes the switches and internal connections that served nothing but a
terminal of a connectable. -/
def pruneBay (connectable voltageLevel : String) (node : Node) : Run Unit := do
  let n ← network
  let w ← lookUp (n.wiring voltageLevel)
  cut connectable voltageLevel ((n.bay w node).prune node)

/-- Prunes the bays of terminals in turn. -/
def pruneBays (connectable : String) : List Terminal → Run Unit
  | [] => return
  | t :: rest => do
    match t.node? with
    | some node => pruneBay connectable t.voltageLevel node
    | none => pure ()
    pruneBays connectable rest

end Run

end Switchyard
