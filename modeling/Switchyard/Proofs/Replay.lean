import Switchyard.Proofs.History

namespace Switchyard

open Std Network

/-- The ids in use, each with the voltage level that it lay inside of at first. -/
abbrev Ledger := ExtTreeMap String (Option String)

def Network.ledger (n : Network) : Ledger :=
  n.index.map fun _ e => e.voltageLevel

namespace Ledger

/-- Writes a change down. Only an absent id can be added, and only a present
one removed. A voltage level goes with what lay inside of it. -/
def write (l : Ledger) : IdChange → Option Ledger
  | .add x => if x ∈ l then none else some (l.insert x none)
  | .remove x => if x ∈ l then some (l.erase x) else none
  | .clear vl =>
    if vl ∈ l then some (l.filter fun x holder => x != vl && holder != some vl) else none

def writeReport (l : Ledger) (r : Report) : Option Ledger :=
  match r.idChange? with
  | some c => l.write c
  | none => some l

/-- Writes down what the reports tell, in order. -/
def replay (l : Ledger) (reports : List Report) : Option Ledger :=
  reports.foldlM writeReport l

variable {tight : Prop} {doomed : String → Prop} {l : Ledger} {n : Network} {s t : Session}

/-- The ledger has the ids of the network, and knows what lies inside of the
voltage levels in `doomed`. -/
structure Follows (l : Ledger) (doomed : String → Prop) (n : Network) : Prop where
  mem_iff : ∀ id, id ∈ l ↔ id ∈ n.index
  inside_iff : ∀ vl, doomed vl → ∀ id : String, l[id]? = some (some vl) ↔
    ∃ e, n.index[id]? = some e ∧ e.voltageLevel = some vl

theorem follows_ledger (n : Network) : n.ledger.Follows doomed n where
  mem_iff := by simp [Network.ledger]
  inside_iff := by simp [Network.ledger]

theorem replay_append (l : Ledger) (xs ys : List Report) :
    l.replay (xs ++ ys) = (l.replay xs).bind (·.replay ys) := by
  simp only [replay, List.foldlM_append]
  rfl

theorem replay_other (l : Ledger) {e : Event} (he : e.idChange? = none) :
    l.replay [e.report] = some l := by
  simp only [replay, List.foldlM_cons, List.foldlM_nil, writeReport, Event.idChange?_report, he]
  rfl

theorem replay_change (l : Ledger) {e : Event} {c : IdChange} (he : e.idChange? = some c) :
    l.replay [e.report] = l.write c := by
  simp only [replay, List.foldlM_cons, List.foldlM_nil, writeReport, Event.idChange?_report, he]
  cases l.write c <;> rfl

theorem Follows.add {id : String} {entry : IndexEntry} {m : Network} (h : l.Follows doomed n)
    (hm : n.Gains tight id entry m) (hd : ∀ vl, entry.voltageLevel = some vl → ¬doomed vl) :
    ∃ l', l.write (.add id) = some l' ∧ l'.Follows doomed m := by
  have hid : id ∉ l := fun hl => hm.fresh ((h.mem_iff id).mp hl)
  refine ⟨l.insert id none, if_neg hid, fun x => ?_, fun vl hvl x => ?_⟩
  · rw [hm.index_eq, ExtTreeMap.mem_insert, ExtTreeMap.mem_insert, h.mem_iff]
  · rw [hm.index_eq, ExtTreeMap.getElem?_insert, ExtTreeMap.getElem?_insert]
    split
    · have hout : entry.voltageLevel ≠ some vl := fun he => hd vl he hvl
      simpa using hout
    · exact h.inside_iff vl hvl x

theorem Follows.remove {id : String} {m : Network} (h : l.Follows doomed n) (hid : id ∈ n.index)
    (hm : m.index = n.index.erase id) :
    ∃ l', l.write (.remove id) = some l' ∧ l'.Follows doomed m := by
  refine ⟨l.erase id, if_pos ((h.mem_iff id).mpr hid), fun x => ?_, fun vl hvl x => ?_⟩
  · rw [hm, ExtTreeMap.mem_erase, ExtTreeMap.mem_erase, h.mem_iff]
  · rw [hm, ExtTreeMap.getElem?_erase, ExtTreeMap.getElem?_erase]
    split
    · simp
    · exact h.inside_iff vl hvl x

theorem Follows.clear {vl : String} {m : Network} (h : l.Follows doomed n) (hd : doomed vl)
    (hvl : vl ∈ n.index)
    (hm : m.index = n.index.filter fun x e => x != vl && e.voltageLevel != some vl) :
    ∃ l', l.write (.clear vl) = some l' ∧ l'.Follows doomed m := by
  have hledger : ∀ (x : String) holder,
      (l.filter fun x holder => x != vl && holder != some vl)[x]? = some holder ↔
        l[x]? = some holder ∧ x ≠ vl ∧ holder ≠ some vl := by
    intro x holder
    rw [ExtTreeMap.getElem?_filter']
    simp [Option.filter_eq_some_iff]
  have hindex : ∀ (x : String) e, m.index[x]? = some e ↔
      n.index[x]? = some e ∧ x ≠ vl ∧ e.voltageLevel ≠ some vl := by
    intro x e
    rw [hm, ExtTreeMap.getElem?_filter']
    simp [Option.filter_eq_some_iff]
  refine ⟨_, if_pos ((h.mem_iff vl).mpr hvl), fun x => ?_, fun other hother x => ?_⟩
  · have hx := h.mem_iff x
    have hin := h.inside_iff vl hd x
    simp only [mem_iff_exists_getElem?, hledger, hindex] at hx ⊢
    constructor
    · intro hx
      obtain ⟨holder, hl, hne, hout⟩ := hx
      obtain ⟨e, he⟩ := hx.mp ⟨holder, hl⟩
      refine ⟨e, he, hne, fun hevl => hout ?_⟩
      exact Option.some.inj (hl.symm.trans (hin.mpr ⟨e, he, hevl⟩))
    · intro hx
      obtain ⟨e, he, hne, hout⟩ := hx
      obtain ⟨holder, hl⟩ := hx.mpr ⟨e, he⟩
      refine ⟨holder, hl, hne, fun hheld => hout ?_⟩
      obtain ⟨f, hf, hfvl⟩ := hin.mp (hheld ▸ hl)
      rwa [Option.some.inj (he.symm.trans hf)]
  · have hin := h.inside_iff other hother x
    simp only [hledger, hindex]
    constructor
    · intro hx
      obtain ⟨hl, hne, hout⟩ := hx
      obtain ⟨e, he, hevl⟩ := hin.mp hl
      exact ⟨e, ⟨he, hne, hevl ▸ hout⟩, hevl⟩
    · intro hx
      obtain ⟨e, ⟨he, hne, hout⟩, hevl⟩ := hx
      exact ⟨hin.mpr ⟨e, he, hevl⟩, hne, hevl ▸ hout⟩

theorem Follows.step (h : l.Follows doomed s.network) (hs : s.network.Coherent tight)
    (hst : Step tight doomed s t) : ∃ more l', t.events = s.events ++ more ∧
      l.replay (more.map (·.report)) = some l' ∧ l'.Follows doomed t.network := by
  cases hst with
  | @note e he hi => exact ⟨[e], l, rfl, l.replay_other hi, h⟩
  | @quiet n hn hi =>
    refine ⟨[], l, (List.append_nil _).symm, rfl, ?_, ?_⟩
    · simpa only [hi] using h.mem_iff
    · simpa only [hi] using h.inside_iff
  | @gain n e id entry hn hd he hi =>
    obtain ⟨l', hl', hf⟩ := h.add hn hd
    exact ⟨[e], l', rfl, (l.replay_change hi).trans hl', hf⟩
  | @lose n e id hn hid hx he hi =>
    obtain ⟨l', hl', hf⟩ := h.remove (m := n) hid hx
    exact ⟨[e], l', rfl, (l.replay_change hi).trans hl', hf⟩
  | @clear n vl hn hd hvl hx =>
    obtain ⟨l', hl', hf⟩ := h.clear (m := n) hd (hs.mem_index (.voltageLevel hvl)) hx
    exact ⟨[.voltageLevelRemoved vl], l', rfl, (l.replay_change rfl).trans hl', hf⟩

theorem Follows.steps (h : l.Follows doomed s.network) (hs : s.network.Coherent tight)
    (hst : Steps tight doomed s t) : ∃ more l', t.events = s.events ++ more ∧
      l.replay (more.map (·.report)) = some l' ∧ l'.Follows doomed t.network := by
  induction hst with
  | refl => exact ⟨[], l, (List.append_nil _).symm, rfl, h⟩
  | @tail t u hsteps hstep ih =>
    obtain ⟨more, l', ht, hl', hf⟩ := ih
    obtain ⟨last, l'', hu, hl'', hf⟩ := hf.step (Steps.coherent hsteps hs) hstep
    refine ⟨more ++ last, l'', by rw [hu, ht, List.append_assoc], ?_, hf⟩
    rw [List.map_append, replay_append, hl', Option.bind_some, hl'']

end Ledger

namespace Modification

variable {tight : Prop} {n : Network}

theorem replay_of_coherent (h : n.Coherent tight) (m : Modification) (naming : NamingStrategy)
    (strict : Bool) :
    ∃ l, n.ledger.replay ((m.apply n naming strict).events.map (·.report)) = some l ∧
      ∀ x, x ∈ l ↔ x ∈ (m.apply n naming strict).network.index := by
  have hstart : n.ledger.Follows (m.Dooms n) n := Ledger.follows_ledger n
  obtain ⟨t, hst, hrun⟩ | ⟨f, e, t, -, he, hst, htrue, hfalse⟩ := m.apply_cases h naming
  · obtain ⟨more, l, ht, hl, hf⟩ := hstart.steps h hst
    rw [hrun]
    exact ⟨l, by simpa only [ht, List.nil_append] using hl, hf.mem_iff⟩
  · obtain ⟨more, l, ht, hl, hf⟩ := hstart.steps h hst
    have hother : e.idChange? = none := by
      rcases he with rfl | rfl <;> rfl
    -- The report of the fault comes last, and tells of no id.
    have hreplay : n.ledger.replay ((t.events ++ [e]).map (·.report)) = some l := by
      rw [List.map_append, Ledger.replay_append, ht, List.nil_append, hl, Option.bind_some]
      exact l.replay_other hother
    cases strict with
    | true =>
      rw [htrue]
      exact ⟨l, hreplay, hf.mem_iff⟩
    | false =>
      rw [hfalse]
      exact ⟨l, hreplay, hf.mem_iff⟩

/-- The reports of a modification, also of one that fails half way, tell every
id that it adds to a network and every id that it takes away, each when it can be. -/
theorem replay_reports (id : String) (serial : Nat) (ops : List Operation) (m : Modification)
    (naming : NamingStrategy) (strict : Bool) :
    ∃ l, ((empty id serial).after ops).ledger.replay
        ((m.apply ((empty id serial).after ops) naming strict).events.map (·.report)) = some l ∧
      ∀ x, x ∈ l ↔ (m.apply ((empty id serial).after ops) naming strict).network.contains x := by
  obtain ⟨l, hl, hmem⟩ :=
    m.replay_of_coherent ((coherent_empty False id serial).after ops False.elim) naming strict
  exact ⟨l, hl, fun x => by rw [hmem, contains, ExtTreeMap.contains_iff_mem]⟩

end Modification

end Switchyard
