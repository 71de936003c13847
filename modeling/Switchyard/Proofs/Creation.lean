import Switchyard.Proofs.Entering

namespace Switchyard

open Std Network

variable [Numbering] {tight : Prop} {n : Network}

/-- How every connectable is created: its terminals are checked, its id is
claimed, its sides are attached, and it is stored. -/
def Edit.enter (ts : List (Side × Terminal)) (id : String) (unique : Bool)
    (make : String → Connectable) : Edit String := do
  Edit.checkTerminals [] (ts.map (·.2))
  let id ← Edit.claimId id unique (make id).kind (make id).holder
  Edit.attachTerminals id ts
  modify (·.put id (make id))
  return id

theorem Edit.enter_cases (h : n.Coherent tight) (ts : List (Side × Terminal)) (id : String)
    (unique : Bool) (make : String → Connectable)
    (hmake : ∀ x, (make x).id = x ∧ (make x).terminals = ts ∧ (make x).entry = (make id).entry) :
    (∃ given m, Edit.enter ts id unique make n = .ok given m ∧ (unique = false → given = id) ∧
        n.Gains tight given (make id).entry m ∧ m.Keeps given (make given)) ∨
      (Edit.enter ts id unique make).Refuses n := by
  unfold Edit.enter Edit.Refuses
  simp only [bind_apply, modify_apply, pure_apply]
  obtain ⟨hfree, -, hpair, hcheck⟩ | ⟨f, hcheck, hf⟩ :=
    Edit.checkTerminals_cases n [] (ts.map (·.2))
  · rw [hcheck]
    dsimp only
    obtain ⟨given, hnew, hsame, hclaim⟩ | ⟨f, hclaim, hf⟩ :=
      Edit.claimId_cases n id unique (make id).kind (make id).holder
    · rw [hclaim]
      dsimp only
      have hfirm : ∀ vl w, (n.register given (make id).entry).inside? vl = some (.nodeBreaker w) →
          w.Firm tight := fun vl w hw => h.firm_wiring hw
      have hfree : ∀ x ∈ ts, n.Free x.2 := fun x hx => hfree x.2 (List.mem_map_of_mem hx)
      obtain ⟨m, hattach, hr, hh⟩ :=
        Edit.attachTerminals_spec hfirm given hfree hpair
      obtain ⟨hid, hts, hentry⟩ := hmake given
      have hgain := h.put (c := make given) (m := m) hnew hid (hts ▸ hfree) (hentry ▸ hr) (hts ▸ hh)
      refine Or.inl ⟨given, m.put given (make given), ?_, hsame, hentry ▸ hgain, ?_⟩
      · have hattach : Edit.attachTerminals given ts
            (n.register given ⟨(make id).kind, (make id).holder⟩) = .ok () m :=
          hattach
        rw [hattach]
      · have hnone : ∀ d, ¬m.Keeps given d := fun d hd =>
          h.stores_of_index hnew _ (.connectable (keeps_register.mp (hr.keeps_iff.mp hd)))
        exact (keeps_put hnone _).mpr (Or.inr ⟨rfl, rfl⟩)
    · exact Or.inr ⟨f, by rw [hclaim], hf⟩
  · exact Or.inr ⟨f, by rw [hcheck], hf⟩

theorem BusbarSectionDraft.create_cases (h : n.Coherent tight) (d : BusbarSectionDraft) :
    (∃ id m, d.create n = .ok id m ∧
        n.Gains tight id ⟨.busbarSection, some d.voltageLevel⟩ m) ∨
      d.create.Refuses n := by
  let make (id : String) : Connectable := .busbarSection
    { id, name := d.name, voltageLevel := d.voltageLevel, node := d.node, position := d.position }
  have hd : d.create =
      Edit.enter [(.one, .atNode d.voltageLevel d.node)] d.id d.unique make :=
    rfl
  rw [hd]
  obtain ⟨id, m, hok, -, hg, -⟩ | hr := Edit.enter_cases h
    [(.one, .atNode d.voltageLevel d.node)] d.id d.unique make fun x => ⟨rfl, rfl, rfl⟩
  · exact Or.inl ⟨id, m, hok, hg⟩
  · exact Or.inr hr

omit [Numbering] in
theorem Connectable.terminal?_eq_some_iff {c : Connectable} {side : Side} {t : Terminal} :
    c.terminal? side = some t ↔ (side, t) ∈ c.terminals := by
  have hbeq : ∀ s u : Side, (s == u) = decide (s = u) := fun _ _ => rfl
  cases c <;> cases side <;> simp [terminal?, terminals, List.lookup_cons, hbeq, eq_comm (a := t)]

namespace ConnectableDraft

/-- The terminal of a side, once it is set. -/
def terminal? : ConnectableDraft → Side → Option Terminal
  | .injection d, .one => d.terminal
  | .branch d, s => d.terminal? s
  | .transformer d, .one => d.terminal1
  | .transformer d, .two => d.terminal2
  | .transformer d, .three => d.terminal3
  | _, _ => none

/-- The draft has the terminals of all its sides. It enters the network as what
`make` makes of an id. -/
structure Makes (d : ConnectableDraft) (ts : List (Side × Terminal))
    (make : String → Connectable) : Prop where
  create_eq : ∃ unique, d.create = Edit.enter ts d.id unique make
  id_eq : ∀ x, (make x).id = x
  terminals_eq : ∀ x, (make x).terminals = ts
  entry_eq : ∀ x, (make x).entry = ⟨d.kind, none⟩
  position_eq : ∀ x, (make x).position = none
  sides_eq : ts.map (·.1) = d.sides
  terminal_iff : ∀ s t, d.terminal? s = some t ↔ (s, t) ∈ ts

end ConnectableDraft

def InjectionDraft.injection (d : InjectionDraft) (terminal : Terminal) (id : String) : Injection :=
  { id, name := d.name, kind := d.kind, terminal, p0 := d.p0, q0 := d.q0, position := none }

def BranchDraft.branch (d : BranchDraft) (terminal1 terminal2 : Terminal) (id : String) : Branch :=
  { id, name := d.name, kind := d.kind, terminal1, terminal2, parameters := d.parameters,
    limits1 := d.limits1, limits2 := d.limits2, position := none }

def TransformerDraft.transformer (d : TransformerDraft) (terminal1 terminal2 terminal3 : Terminal)
    (id : String) : ThreeWindingsTransformer :=
  { id, name := d.name, terminal1, terminal2, terminal3, position := none }

theorem BranchDraft.create_eq {d : BranchDraft} {t1 t2 : Terminal} (h1 : d.terminal1 = some t1)
    (h2 : d.terminal2 = some t2) :
    d.create =
      Edit.enter [(.one, t1), (.two, t2)] d.id d.unique fun id => .branch (d.branch t1 t2 id) := by
  simp only [create, h1, h2]
  rfl

namespace ConnectableDraft

/-- Only a draft without one of its terminals cannot enter at all. -/
theorem makes_or_refuses (d : ConnectableDraft) :
    (∃ ts make, d.Makes ts make) ∨
      ∃ f : Fault, f.kind ≠ .internal ∧ ∀ n, d.create n = .error f n := by
  cases d with
  | injection d =>
    cases ht : d.terminal with
    | none =>
      refine Or.inr ⟨.injectionUnattached d.id, by simp [Fault.kind], fun n => ?_⟩
      simp only [create, InjectionDraft.create, ht]
      rfl
    | some t =>
      have hd : (injection d).create =
          Edit.enter [(.one, t)] d.id d.unique fun id => .injection (d.injection t id) := by
        simp only [create, InjectionDraft.create, ht]
        rfl
      refine Or.inl ⟨_, _, ⟨_, hd⟩, fun _ => rfl, fun _ => rfl, fun _ => rfl, fun _ => rfl, rfl,
        fun s u => ?_⟩
      cases s <;> simp [terminal?, ht, eq_comm]
  | branch d =>
    cases h1 : d.terminal1 with
    | none =>
      refine Or.inr ⟨.branchUnattached d.id, by simp [Fault.kind], fun n => ?_⟩
      simp only [create, BranchDraft.create, h1]
      rfl
    | some t1 =>
    cases h2 : d.terminal2 with
    | none =>
      refine Or.inr ⟨.branchUnattached d.id, by simp [Fault.kind], fun n => ?_⟩
      simp only [create, BranchDraft.create, h1, h2]
      rfl
    | some t2 =>
      refine Or.inl ⟨_, _, ⟨_, BranchDraft.create_eq h1 h2⟩, fun _ => rfl, fun _ => rfl,
        fun _ => rfl, fun _ => rfl, rfl, fun s u => ?_⟩
      cases s <;> simp [terminal?, BranchDraft.terminal?, h1, h2, eq_comm]
  | transformer d =>
    cases h1 : d.terminal1 with
    | none =>
      refine Or.inr ⟨.transformerUnattached d.id, by simp [Fault.kind], fun n => ?_⟩
      simp only [create, TransformerDraft.create, h1]
      rfl
    | some t1 =>
    cases h2 : d.terminal2 with
    | none =>
      refine Or.inr ⟨.transformerUnattached d.id, by simp [Fault.kind], fun n => ?_⟩
      simp only [create, TransformerDraft.create, h1, h2]
      rfl
    | some t2 =>
    cases h3 : d.terminal3 with
    | none =>
      refine Or.inr ⟨.transformerUnattached d.id, by simp [Fault.kind], fun n => ?_⟩
      simp only [create, TransformerDraft.create, h1, h2, h3]
      rfl
    | some t3 =>
      have hd : (transformer d).create =
          Edit.enter [(.one, t1), (.two, t2), (.three, t3)] d.id false fun id =>
            .transformer (d.transformer t1 t2 t3 id) := by
        simp only [create, TransformerDraft.create, h1, h2, h3]
        rfl
      refine Or.inl ⟨_, _, ⟨_, hd⟩, fun _ => rfl, fun _ => rfl, fun _ => rfl, fun _ => rfl, rfl,
        fun s u => ?_⟩
      cases s <;> simp [terminal?, h1, h2, h3, eq_comm]

/-- A created connectable has the kind and the terminals of its draft, and lies
in no voltage level. -/
theorem create_cases (h : n.Coherent tight) (d : ConnectableDraft) :
    (∃ id m c, d.create n = .ok id m ∧ n.Gains tight id ⟨d.kind, none⟩ m ∧ m.Keeps id c ∧
        c.kind = d.kind ∧ c.isBusbarSection = false ∧
        ∀ s t, d.terminal? s = some t → c.terminal? s = some t) ∨
      d.create.Refuses n := by
  obtain ⟨ts, make, hd⟩ | ⟨f, hf, hrefuse⟩ := d.makes_or_refuses
  · obtain ⟨unique, hcreate⟩ := hd.create_eq
    rw [hcreate]
    obtain ⟨x, m, hok, -, hg, hk⟩ | hr := Edit.enter_cases h ts d.id unique make fun x =>
      ⟨hd.id_eq x, hd.terminals_eq x, (hd.entry_eq x).trans (hd.entry_eq d.id).symm⟩
    · rw [hd.entry_eq d.id] at hg
      refine Or.inl ⟨x, m, make x, hok, hg, hk, congrArg IndexEntry.kind (hd.entry_eq x), ?_, ?_⟩
      · have hholder : (make x).holder = none := congrArg IndexEntry.voltageLevel (hd.entry_eq x)
        cases hc : make x with
        | busbarSection b =>
          rw [hc] at hholder
          cases hholder
        | injection i => rfl
        | branch b => rfl
        | transformer t => rfl
      · intro s t ht
        rw [Connectable.terminal?_eq_some_iff, hd.terminals_eq x]
        exact (hd.terminal_iff s t).mp ht
    · exact Or.inr hr
  · exact Or.inr ⟨f, hrefuse n, hf⟩

end ConnectableDraft

end Switchyard
