import Switchyard.Proofs.Augmented
import Switchyard.Proofs.Effects

namespace Switchyard

open Std

/-- The second inside of a voltage level is the first one with the switches `S`
and the terminals `T` besides. Buses stay as they are. -/
inductive Topology.Augmented (S : Set Switch) (T : Set (Node × Attachment)) :
    Topology → Topology → Prop
  | layout (l : BusLayout) : Topology.Augmented S T (.busBreaker l) (.busBreaker l)
  | wiring {w w' : Wiring} (hw : w.Sound) (hw' : w'.Sound) (h : w.Augmented S T w') :
    Topology.Augmented S T (.nodeBreaker w) (.nodeBreaker w')

theorem Topology.Augmented.trans {S S' : Set Switch} {T T' : Set (Node × Attachment)}
    {t u v : Topology} (h : Topology.Augmented S T t u) (h' : Topology.Augmented S' T' u v) :
    Topology.Augmented (S ∪ S') (T ∪ T') t v := by
  cases h with
  | layout l =>
    cases h'
    exact .layout l
  | wiring hw hu h =>
    cases h' with
    | wiring _ hv h' => exact .wiring hw hv (h.trans h')

/-- The switches that tell a voltage level. -/
def switchesAt (S : Set Switch) (vl : String) : Set Switch :=
  {s | s ∈ S ∧ s.voltageLevel = vl}

/-- The sides at the nodes of a voltage level. -/
def terminalsAt (T : Set (Terminal × Attachment)) (vl : String) : Set (Node × Attachment) :=
  {x | (.atNode vl x.1, x.2) ∈ T}

/-- The sides of connectables, with their terminals. -/
def attachments (C : Set Connectable) : Set (Terminal × Attachment) :=
  {x | ∃ c ∈ C, c.id = x.2.connectable ∧ (x.2.side, x.1) ∈ c.terminals}

/-- The sides of one connectable. -/
def sidesOf (id : String) (ts : List (Side × Terminal)) : Set (Terminal × Attachment) :=
  {x | x.2.connectable = id ∧ (x.2.side, x.1) ∈ ts}

theorem attachments_insert (c : Connectable) (C : Set Connectable) :
    attachments (insert c C) = attachments C ∪ sidesOf c.id c.terminals := by
  ext x
  simp only [attachments, sidesOf, Set.mem_ofPred_eq, Set.mem_union, Set.mem_insert_iff,
    exists_eq_or_imp]
  grind

theorem attachments_singleton (c : Connectable) :
    attachments {c} = sidesOf c.id c.terminals := by
  ext x
  simp only [attachments, sidesOf, Set.mem_ofPred_eq, Set.mem_singleton_iff, exists_eq_left]
  grind

@[simp] theorem attachments_empty : attachments ∅ = ∅ := by
  ext x
  simp [attachments]

namespace Network

variable {X : Set String} {S S' : Set Switch} {T T' : Set (Terminal × Attachment)}
  {C : Set Connectable} {n m k : Network} {vl id : String}

/-- The voltage levels of the second network are those of the first one with the
switches `S` and the terminals `T` besides. What lies inside the voltage levels
`X` is left open. -/
structure Wired (X : Set String) (S : Set Switch) (T : Set (Terminal × Attachment))
    (n m : Network) : Prop where
  shell : ∀ vl, m.shell? vl = n.shell? vl
  inside : ∀ vl ∉ X, ∀ t, n.inside? vl = some t → ∃ u, m.inside? vl = some u ∧
    Topology.Augmented (switchesAt S vl) (terminalsAt T vl) t u

/-- A terminal is at a node that is new, or that something refers to. -/
def Seats (n : Network) (t : Terminal) : Prop :=
  ∀ vl node w, t = .atNode vl node → n.inside? vl = some (.nodeBreaker w) → node ∈ w.places →
    w.Referenced node

/-- All wirings are sound. -/
def Sound (n : Network) : Prop :=
  ∀ vl w, n.inside? vl = some (.nodeBreaker w) → w.Sound

theorem Coherent.sound (h : n.Coherent False) : n.Sound :=
  fun _ _ hw => (h.firm_wiring hw).1

theorem Sound.setTopology (h : n.Sound) {w : Wiring} (hw : w.Sound) :
    (n.setTopology vl (.nodeBreaker w)).Sound := by
  intro x u hu
  rw [inside?_setTopology] at hu
  split at hu
  · obtain ⟨_, -, he⟩ := Option.map_eq_some_iff.mp hu
    cases he
    exact hw
  · exact h x u hu

/-- A terminal that is detached leaves no node that is out of use. -/
theorem Sound.seats_detach (h : n.Sound) {w : Wiring} {node : Node}
    (hw : n.inside? vl = some (.nodeBreaker w)) {t : Terminal}
    (ht : t ≠ .atNode vl node → n.Seats t) :
    (n.setTopology vl (.nodeBreaker (w.detach node))).Seats t := by
  rintro x other u rfl hu hp
  rw [inside?_setTopology] at hu
  split at hu
  next he =>
    subst he
    rw [hw] at hu
    cases hu
    refine (h vl w hw).referenced_detach (fun hne => ht ?_ vl other w rfl hw) hp
    simpa [Terminal.atNode] using hne
  next he =>
    exact ht (by simp [Terminal.atNode, Ne.symm he]) x other u rfl hu hp

theorem Sound.seats_detachTerminals (h : n.Sound) {ts : List Terminal}
    (hok : Edit.detachTerminals ts n = .ok () m) {t : Terminal} (ht : t ∉ ts → n.Seats t) :
    m.Seats t := by
  induction ts generalizing n with
  | nil =>
    cases hok
    exact ht List.not_mem_nil
  | cons x rest ih =>
    obtain ⟨vl, connection⟩ := x
    cases connection with
    | bus bus =>
      refine ih h hok fun hout => ?_
      by_cases he : t = ⟨vl, .bus bus⟩
      · subst he
        rintro _ _ _ ⟨⟩
      · exact ht (by simp [he, hout])
    | node node =>
      obtain ⟨w, hw, hrun⟩ := Edit.detachTerminals_eq_ok hok
      refine ih (h.setTopology ((h vl w hw).detach node)) hrun fun hout => ?_
      exact h.seats_detach hw fun hne => ht (by simp [hout, Terminal.atNode] at hne ⊢; exact hne)

namespace Wired

theorem refl (h : n.Sound) : Wired X ∅ ∅ n n where
  shell := fun _ => rfl
  inside := by
    intro vl _ t ht
    have hS : switchesAt ∅ vl = ∅ := by simp [switchesAt]
    have hT : terminalsAt ∅ vl = ∅ := by simp [terminalsAt]
    refine ⟨t, ht, ?_⟩
    rw [hS, hT]
    cases t with
    | nodeBreaker w => exact .wiring (h vl w ht) (h vl w ht) (.refl w)
    | busBreaker l => exact .layout l

theorem trans (h : Wired X S T n m) (h' : Wired X S' T' m k) :
    Wired X (S ∪ S') (T ∪ T') n k where
  shell := fun vl => (h'.shell vl).trans (h.shell vl)
  inside := by
    intro vl hvl t ht
    obtain ⟨u, hu, htu⟩ := h.inside vl hvl t ht
    obtain ⟨v, hv, huv⟩ := h'.inside vl hvl u hu
    have hS : switchesAt (S ∪ S') vl = switchesAt S vl ∪ switchesAt S' vl := by
      ext s
      simp only [switchesAt, Set.mem_ofPred_eq, Set.mem_union]
      grind
    refine ⟨v, hv, ?_⟩
    rw [hS]
    exact htu.trans huv

theorem of_wiring (h : Wired X S T n m) (hvl : vl ∉ X) {w : Wiring}
    (hw : n.inside? vl = some (.nodeBreaker w)) :
    ∃ w', m.inside? vl = some (.nodeBreaker w') ∧ w.Sound ∧ w'.Sound ∧
      w.Augmented (switchesAt S vl) (terminalsAt T vl) w' := by
  obtain ⟨u, hu, ha⟩ := h.inside vl hvl _ hw
  cases ha with
  | wiring hs hs' ha => exact ⟨_, hu, hs, hs', ha⟩

theorem wiring_old (h : Wired X S T n m) (hvl : vl ∉ X) {w' : Wiring}
    (hw' : m.inside? vl = some (.nodeBreaker w')) :
    ∃ w, n.inside? vl = some (.nodeBreaker w) ∧ w.Sound ∧ w'.Sound ∧
      w.Augmented (switchesAt S vl) (terminalsAt T vl) w' := by
  have hm : vl ∈ m.voltageLevels := by rw [← inside?_isSome_iff, hw', Option.isSome_some]
  have hn : vl ∈ n.voltageLevels := by
    rw [← shell?_isSome_iff, ← h.shell vl, shell?_isSome_iff]
    exact hm
  obtain ⟨t, ht⟩ := Option.isSome_iff_exists.mp (inside?_isSome_iff.mpr hn)
  obtain ⟨u, hu, ha⟩ := h.inside vl hvl t ht
  rw [hw'] at hu
  cases hu
  cases ha with
  | wiring hs hs' ha => exact ⟨_, ht, hs, hs', ha⟩

theorem setTopology (h : Wired X S T n m) {w' w'' : Wiring}
    (hw' : m.inside? vl = some (.nodeBreaker w'))
    (hS : ∀ x ≠ vl, switchesAt S' x = switchesAt S x)
    (hT : ∀ x ≠ vl, terminalsAt T' x = terminalsAt T x)
    (hnew : ∀ w, n.inside? vl = some (.nodeBreaker w) → w.Sound → w'.Sound →
      w.Augmented (switchesAt S vl) (terminalsAt T vl) w' →
      w''.Sound ∧ w.Augmented (switchesAt S' vl) (terminalsAt T' vl) w'') :
    Wired X S' T' n (m.setTopology vl (.nodeBreaker w'')) where
  shell := fun x => (m.shell?_setTopology vl _ x).trans (h.shell x)
  inside := by
    intro x hx t ht
    rw [inside?_setTopology]
    by_cases he : vl = x
    · subst he
      obtain ⟨w, hw, hs, hs', ha⟩ := h.wiring_old hx hw'
      rw [hw] at ht
      cases ht
      obtain ⟨hs'', ha''⟩ := hnew w hw hs hs' ha
      rw [if_pos rfl, hw']
      exact ⟨_, rfl, .wiring hs hs'' ha''⟩
    · rw [if_neg he, hS x (Ne.symm he), hT x (Ne.symm he)]
      exact h.inside x hx t ht

theorem congr (h : Wired X S T n m) (hk : k.voltageLevels = m.voltageLevels) : Wired X S T n k where
  shell := by simpa only [shell?, hk] using h.shell
  inside := by simpa only [inside?, hk] using h.inside

theorem congr_terminals (h : Wired X S T n m) (hT : ∀ x, terminalsAt T' x = terminalsAt T x) :
    Wired X S T' n m := by
  refine ⟨h.shell, ?_⟩
  simpa only [hT] using h.inside

theorem attachTerminals (h : Wired X S T n m) {ts : List (Side × Terminal)}
    (hok : Edit.attachTerminals id ts m = .ok () k) : Wired X S (T ∪ sidesOf id ts) n k := by
  induction ts generalizing T m with
  | nil =>
    cases hok
    refine h.congr_terminals fun x => ?_
    simp [sidesOf]
  | cons x rest ih =>
    obtain ⟨side, vl, connection⟩ := x
    cases connection with
    | bus bus =>
      refine (ih h hok).congr_terminals fun x => ?_
      ext y
      simp [terminalsAt, sidesOf, Terminal.atNode]
    | node node =>
      obtain ⟨w', w'', hw', ha', hrun⟩ := Edit.attachTerminals_eq_ok hok
      have hstep : Wired X S (insert (.atNode vl node, ⟨id, side⟩) T) n
          (m.setTopology vl (.nodeBreaker w'')) := by
        refine h.setTopology hw' (fun _ _ => rfl) (fun x hx => ?_) fun w hw hs hs' ha => ?_
        · ext y
          simp [terminalsAt, Terminal.atNode, hx]
        · have hT : terminalsAt (insert (.atNode vl node, ⟨id, side⟩) T) vl =
              insert (node, ⟨id, side⟩) (terminalsAt T vl) := by
            ext y
            simp [terminalsAt, Terminal.atNode, Prod.ext_iff]
          rw [hT]
          obtain ⟨hfree, rfl⟩ := Wiring.attach_eq_ok.mp ha'
          obtain ⟨u, hu, hsound, -⟩ := hs'.attach hfree ⟨id, side⟩
          rw [ha'] at hu
          cases hu
          exact ⟨hsound, ha.attach hs' ha'⟩
      refine (ih hstep hrun).congr_terminals fun x => ?_
      ext ⟨node', other, side'⟩
      simp only [terminalsAt, sidesOf, Set.mem_ofPred_eq, Set.mem_union, Set.mem_insert_iff,
        List.mem_cons, Prod.mk.injEq, Attachment.mk.injEq, Terminal.atNode]
      grind

theorem detachTerminals (h : Wired X S T n m) {ts : List (Side × Terminal)} (hnodup : ts.Nodup)
    (hin : ∀ x ∈ ts, (x.2, ⟨id, x.1⟩) ∈ T) (hseats : ∀ x ∈ ts, n.Seats x.2)
    (hok : Edit.detachTerminals (ts.map (·.2)) m = .ok () k) :
    Wired X S (T \ sidesOf id ts) n k := by
  induction ts generalizing T m with
  | nil =>
    cases hok
    refine h.congr_terminals fun x => ?_
    simp [sidesOf, terminalsAt]
  | cons x rest ih =>
    obtain ⟨side, vl, connection⟩ := x
    obtain ⟨hfirst, hins⟩ := List.forall_mem_cons.mp hin
    obtain ⟨hseat, hrest⟩ := List.forall_mem_cons.mp hseats
    obtain ⟨hnot, hrests⟩ := List.nodup_cons.mp hnodup
    cases connection with
    | bus bus =>
      refine (ih h hrests hins hrest hok).congr_terminals fun x => ?_
      ext y
      simp [terminalsAt, sidesOf, Terminal.atNode]
    | node node =>
      obtain ⟨w', hw', hrun⟩ := Edit.detachTerminals_eq_ok hok
      have hstep : Wired X S (T \ {(.atNode vl node, ⟨id, side⟩)}) n
          (m.setTopology vl (.nodeBreaker (w'.detach node))) := by
        refine h.setTopology hw' (fun _ _ => rfl) (fun x hx => ?_) fun w hw hs hs' ha => ?_
        · ext y
          simp [terminalsAt, Terminal.atNode, hx]
        · have hT : terminalsAt (T \ {(.atNode vl node, ⟨id, side⟩)}) vl =
              terminalsAt T vl \ {(node, ⟨id, side⟩)} := by
            ext y
            simp [terminalsAt, Terminal.atNode, Prod.ext_iff]
          rw [hT]
          exact ⟨hs'.detach node, ha.detach hs hs' hfirst (hseat vl node w rfl hw)⟩
      have hin' : ∀ x ∈ rest, (x.2, (⟨id, x.1⟩ : Attachment)) ∈
          T \ {(.atNode vl node, ⟨id, side⟩)} := by
        intro x hx
        refine ⟨hins x hx, fun he => hnot ?_⟩
        obtain ⟨side', t⟩ := x
        simp only [Set.mem_singleton_iff, Prod.mk.injEq, Attachment.mk.injEq, true_and] at he
        obtain ⟨rfl, rfl⟩ := he
        exact hx
      refine (ih hstep hrests hin' hrest hrun).congr_terminals fun x => ?_
      ext ⟨node', other, side'⟩
      simp only [terminalsAt, sidesOf, Set.mem_ofPred_eq, Set.mem_sdiff, Set.mem_singleton_iff,
        List.mem_cons, Prod.mk.injEq, Attachment.mk.injEq, Terminal.atNode]
      grind

/-- A side is what its node has besides once it is detached. -/
theorem of_detach (h : m.Sound) {w : Wiring} {node : Node} {a : Attachment}
    (hw : m.inside? vl = some (.nodeBreaker w)) (ha : w.terminals[node]? = some a) :
    Wired X ∅ {(.atNode vl node, a)} (m.setTopology vl (.nodeBreaker (w.detach node))) m where
  shell := fun x => (m.shell?_setTopology vl _ x).symm
  inside := by
    intro x hx t ht
    have hrefl := Wired.refl (X := X) h
    rw [inside?_setTopology] at ht
    split at ht
    next he =>
      subst he
      rw [hw] at ht
      cases ht
      have hS : switchesAt ∅ vl = ∅ := by simp [switchesAt]
      have hT : terminalsAt {(.atNode vl node, a)} vl = {(node, a)} := by
        ext y
        simp [terminalsAt, Terminal.atNode, Prod.ext_iff]
      refine ⟨_, hw, ?_⟩
      rw [hS, hT]
      exact .wiring ((h vl w hw).detach node) (h vl w hw) (.of_detach (h vl w hw) ha)
    next he =>
      have hT : terminalsAt {(.atNode vl node, a)} x = terminalsAt ∅ x := by
        ext y
        simp only [terminalsAt, Terminal.atNode, Set.mem_singleton_iff, Set.mem_ofPred_eq,
          Prod.mk.injEq, Terminal.mk.injEq, Set.mem_empty_iff_false]
        grind
      rw [hT]
      exact hrefl.inside x hx t ht

theorem of_detachTerminals (h : m.Sound) {ts : List (Side × Terminal)} (hnodup : ts.Nodup)
    (hin : ∀ side vl node, (side, .atNode vl node) ∈ ts → m.HoldsAt vl node ⟨id, side⟩)
    (hok : Edit.detachTerminals (ts.map (·.2)) m = .ok () k) :
    Wired X ∅ (sidesOf id ts) k m := by
  induction ts generalizing m with
  | nil =>
    cases hok
    refine (Wired.refl h).congr_terminals fun x => ?_
    simp [sidesOf]
  | cons x rest ih =>
    obtain ⟨side, vl, connection⟩ := x
    obtain ⟨hnot, hrests⟩ := List.nodup_cons.mp hnodup
    cases connection with
    | bus bus =>
      have hk := ih h hrests (fun s v j hm => hin s v j (List.mem_cons_of_mem _ hm)) hok
      refine hk.congr_terminals fun x => ?_
      ext y
      simp [terminalsAt, sidesOf, Terminal.atNode]
    | node node =>
      obtain ⟨w, hw, hrun⟩ := Edit.detachTerminals_eq_ok hok
      obtain ⟨w', hw', ha⟩ := hin side vl node List.mem_cons_self
      rw [hw] at hw'
      cases hw'
      have hrest := ih (h.setTopology ((h vl w hw).detach node)) hrests (fun s v j hm => ?_) hrun
      · have hk := hrest.trans (of_detach h hw ha)
        rw [Set.union_self] at hk
        refine hk.congr_terminals fun x => ?_
        ext ⟨node', other, side'⟩
        simp only [terminalsAt, sidesOf, Set.mem_ofPred_eq, Set.mem_union, Set.mem_singleton_iff,
          List.mem_cons, Prod.mk.injEq, Attachment.mk.injEq, Terminal.atNode]
        grind
      · obtain ⟨u, hu, hb⟩ := hin s v j (List.mem_cons_of_mem _ hm)
        rw [holdsAt_setTopology hw]
        split
        next he =>
          subst he
          rw [hw] at hu
          cases hu
          have hne : node ≠ j := by
            rintro rfl
            rw [ha] at hb
            cases hb
            exact hnot hm
          simpa only [Wiring.terminals_detach, getElem?_erase_of_ne hne] using hb
        next => exact ⟨u, hu, hb⟩

end Wired

end Network

end Switchyard
