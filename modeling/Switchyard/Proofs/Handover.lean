import Switchyard.Proofs.LineSteps

namespace Switchyard

open Std Network

namespace Slots

variable {α : Type}

theorem eq_of_entries {s t : Slots α} (he : s.entries = t.entries)
    (hn : s.numbers = t.numbers) : s = t := by
  cases s
  cases t
  simp_all

theorem numbers_drop (s : Slots α) {number : Nat} (h : number ∈ s.entries) :
    (s.drop number).numbers = Numbering.takeBack s.numbers number := by
  simp [drop, h]

theorem next_drop (s : Slots α) {number : Nat} (h : number ∈ s.entries) :
    (s.drop number).next = number := by
  rw [next, s.numbers_drop h]
  rfl

/-- The value removed last gets its number back. -/
theorem add_drop (s : Slots α) {number : Nat} {a : α} (h : s.entries[number]? = some a) :
    (s.drop number).add a = s := by
  have hm : number ∈ s.entries := mem_iff_exists_getElem?.mpr ⟨a, h⟩
  have hnumbers : ((s.drop number).add a).numbers = Numbering.give (s.drop number).numbers := rfl
  refine eq_of_entries ?_ ?_
  · rw [entries_add, entries_drop, s.next_drop hm, insert_erase, insert_of_getElem? h]
  · rw [hnumbers, s.numbers_drop hm]
    rfl

end Slots

namespace Wiring

variable {w : Wiring} {node : Node} {a b : Attachment}

/-- The wiring with a side at a node, which gets a point unless it has one. -/
def seated (w : Wiring) (node : Node) (a : Attachment) : Wiring :=
  { w.ensureNode node with terminals := w.terminals.insert node a }

/-- The wiring with another side at a node, and all else the same. -/
def handedOver (w : Wiring) (node : Node) (a : Attachment) : Wiring :=
  { w with terminals := w.terminals.insert node a }

/-- A node that loses its point with its terminal gets the same point again. -/
theorem Laid.seated_detach (h : w.Laid) (hb : w.terminals[node]? = some b) :
    (w.detach node).seated node a = w.handedOver node a := by
  have hplaced := h.terminal_placed node (mem_iff_exists_getElem?.mpr ⟨b, hb⟩)
  obtain ⟨he, -⟩ | ⟨point, hp, -, he⟩ := (h.eraseTerminal node).releaseNode_cases node
  · have hkept : ({ w with terminals := w.terminals.erase node } : Wiring).ensureNode node =
        { w with terminals := w.terminals.erase node } :=
      if_pos hplaced
    rw [seated, detach, he, hkept]
    dsimp only
    rw [insert_erase, handedOver]
  · have hp : w.places[node]? = some point := hp
    have hpoint := (h.place_iff node point).mp hp
    have hnext := w.points.next_drop (mem_iff_exists_getElem?.mpr ⟨node, hpoint⟩)
    have hadd := w.points.add_drop hpoint
    have hplaces : (w.places.erase node).insert node point = w.places := by
      rw [insert_erase, insert_of_getElem? hp]
    have hgone : (w.places.erase node).contains node = false := by simp
    rw [seated, detach, he, Wiring.ensureNode]
    simp only [hgone, Bool.false_eq_true, if_false, hnext, hadd, hplaces, insert_erase, handedOver]

end Wiring

namespace Topology

/-- The inside of a voltage level without the terminal. -/
def vacated (t : Topology) (x : Terminal) : Topology :=
  match t, x.node? with
  | .nodeBreaker w, some node => .nodeBreaker (w.detach node)
  | t, _ => t

/-- The inside of a voltage level with a side at the terminal besides. -/
def seated (t : Topology) (x : Terminal) (a : Attachment) : Topology :=
  match t, x.node? with
  | .nodeBreaker w, some node => .nodeBreaker (w.seated node a)
  | t, _ => t

/-- The inside of a voltage level with another side at the terminal, and all else
the same. Buses do not tell what is attached to them. -/
def handedOver (t : Topology) (x : Terminal) (a : Attachment) : Topology :=
  match t, x.node? with
  | .nodeBreaker w, some node => .nodeBreaker (w.handedOver node a)
  | t, _ => t

theorem vacated_of_bus (t : Topology) {x : Terminal} (h : x.node? = none) : t.vacated x = t := by
  cases t <;> simp [vacated, h]

theorem seated_of_bus (t : Topology) {x : Terminal} (h : x.node? = none) (a : Attachment) :
    t.seated x a = t := by
  cases t <;> simp [seated, h]

theorem handedOver_of_bus (t : Topology) {x : Terminal} (h : x.node? = none) (a : Attachment) :
    t.handedOver x a = t := by
  cases t <;> simp [handedOver, h]

end Topology

variable {n m : Network} {id vl : String} {t : Topology}

/-- A terminal that is left and taken again only changes hands. -/
theorem Network.Coherent.seated_vacated (h : n.Coherent False) {x : Terminal} {a b : Attachment}
    (hb : n.Attaches b x) (ht : n.inside? x.voltageLevel = some t) :
    (t.vacated x).seated x a = t.handedOver x a := by
  obtain ⟨vl, connection⟩ := x
  cases connection with
  | bus bus =>
    rw [t.vacated_of_bus rfl, t.seated_of_bus rfl, t.handedOver_of_bus rfl]
  | node node =>
    obtain ⟨w, hw, hb⟩ := (h.holdsAt_iff vl node b).mpr hb
    cases ht.symm.trans hw
    exact congrArg Topology.nodeBreaker ((h.sound vl w hw).seated_detach hb)

namespace Edit

theorem inside?_detachTerminals {ts : List Terminal} (h : detachTerminals ts n = .ok () m) :
    m.inside? vl = (n.inside? vl).map
      ((ts.filter (·.voltageLevel = vl)).foldl Topology.vacated) := by
  induction ts generalizing n with
  | nil =>
    cases h
    simp
  | cons x rest ih =>
    obtain ⟨x, connection⟩ := x
    cases connection with
    | bus bus =>
      rw [ih h, List.filter_cons]
      split <;> simp [Topology.vacated_of_bus _ (x := ⟨x, .bus bus⟩) rfl]
    | node node =>
      obtain ⟨w, hw, hrun⟩ := detachTerminals_eq_ok h
      rw [ih hrun, inside?_setTopology, List.filter_cons]
      split
      next he =>
        subst he
        simp [hw, Topology.vacated, Terminal.node?]
      next he => simp [he]

theorem inside?_attachTerminals {ts : List (Side × Terminal)}
    (h : attachTerminals id ts n = .ok () m) :
    m.inside? vl = (n.inside? vl).map fun t =>
      (ts.filter (·.2.voltageLevel = vl)).foldl (fun u y => u.seated y.2 ⟨id, y.1⟩) t := by
  induction ts generalizing n with
  | nil =>
    cases h
    simp
  | cons x rest ih =>
    obtain ⟨side, x, connection⟩ := x
    cases connection with
    | bus bus =>
      rw [ih h, List.filter_cons]
      split <;> simp [Topology.seated_of_bus _ (x := ⟨x, .bus bus⟩) rfl]
    | node node =>
      obtain ⟨w, w', hw, hattach, hrun⟩ := attachTerminals_eq_ok h
      obtain ⟨-, rfl⟩ := Wiring.attach_eq_ok.mp hattach
      rw [ih hrun, inside?_setTopology, List.filter_cons]
      split
      next he =>
        subst he
        simp [hw, Topology.seated, Wiring.seated, Terminal.node?]
      next he => simp [he]

end Edit

namespace Run

variable {s t : Session}

/-- Removed lines leave their terminals, and nothing else changes inside of voltage levels. -/
theorem inside?_of_losesLines {l : List Branch} {n m : Network} (h : n.LosesLines l m) :
    m.inside? vl = (n.inside? vl).map
      (((l.flatMap fun b => [b.terminal1, b.terminal2]).filter (·.voltageLevel = vl)).foldl
        Topology.vacated) := by
  induction h with
  | nil => simp
  | @cons n k m b rest hn hb hk _ ih =>
    obtain ⟨c, hc, hdetach⟩ := Edit.removeConnectable_eq_ok hk
    cases hn.keeps_unique hb hc
    have hone : k.inside? vl = (n.inside? vl).map
        (([b.terminal1, b.terminal2].filter (·.voltageLevel = vl)).foldl Topology.vacated) := by
      rw [Edit.inside?_detachTerminals hdetach]
      exact congrArg (Option.map _) (n.inside?_take b.id (.branch b) vl)
    rw [ih, hone, Option.map_map, List.flatMap_cons, List.filter_append]
    congr 1
    funext u
    exact (List.foldl_append ..).symm

theorem inside?_createLine {d : BranchDraft} {t1 t2 : Terminal} (h1 : d.terminal1 = some t1)
    (h2 : d.terminal2 = some t2) (hok : createLine d s = .ok id t) :
    t.network.inside? vl = (s.network.inside? vl).map fun u =>
      ([(Side.one, t1), (.two, t2)].filter (·.2.voltageLevel = vl)).foldl
        (fun u y => u.seated y.2 ⟨id, y.1⟩) u := by
  have hok := createLine_eq_ok hok
  rw [BranchDraft.create_eq h1 h2] at hok
  have hentered := fun hmake => Edit.enter_eq_ok hmake hok
  obtain ⟨-, -, -, k, hattach, hk⟩ := hentered rfl
  rw [hk, inside?_put, Edit.inside?_attachTerminals hattach]
  rfl

end Run

end Switchyard
